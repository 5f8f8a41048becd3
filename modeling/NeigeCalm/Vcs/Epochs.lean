import NeigeCalm.Vcs.Store

/-!
# What an unchanged epoch says

While the legacy epoch stands still no tree becomes reachable.  While the unknown epoch stands
still commits are only inserted on top of heads and refs only move to a commit so inserted
(`Quiet`), so that whatever is new hangs under a head or is the pending commit (`Since`).
-/

namespace NeigeCalm.Vcs

open Library Option Std OrderedMap Store
open ExtTreeMap (contains_iff_mem)

namespace Store

/-! ## Epochs only rise -/

variable (store : Store) (hash : Text) (record : CommitRecord)

theorem clearPending_unknown_le (selects : Pending → Bool) :
    store.unknown ≤ (store.clearPending selects).unknown := by
  rcases store.clearPending_cases selects with same | ⟨_, _, _, cleared⟩
  · rw [same]
  · rw [cleared]
    dsimp only
    split <;> omega

theorem beforeInsertCommit_legacy :
    (store.beforeInsertCommit hash record).legacy = store.legacy := by
  rw [beforeInsertCommit]
  split <;> exact clearPending_legacy ..

theorem beforeInsertCommit_commits :
    (store.beforeInsertCommit hash record).commits = store.commits := by
  rw [beforeInsertCommit]
  split <;> exact clearPending_commits ..

theorem beforeInsertCommit_refs : (store.beforeInsertCommit hash record).refs = store.refs := by
  rw [beforeInsertCommit]
  split <;> exact clearPending_refs ..

theorem beforeInsertCommit_unknown_le :
    store.unknown ≤ (store.beforeInsertCommit hash record).unknown := by
  rw [beforeInsertCommit]
  split
  next => exact clearPending_unknown_le store _
  next => exact Nat.le_trans (Nat.le_succ _) (clearPending_unknown_le store.bumpUnknown _)

theorem insertCommit_unknown :
    (store.insertCommit hash record).unknown = (store.beforeInsertCommit hash record).unknown := by
  rw [insertCommit]
  split
  next => rfl
  next =>
    dsimp only
    split <;> rfl

/-- A commit that is there costs both epochs. -/
theorem deleteCommit_epochs {store : Store} {hash : Text} (stored : hash ∈ store.commits) :
    store.legacy < (store.deleteCommit hash).legacy ∧
      store.unknown < (store.deleteCommit hash).unknown := by
  rw [deleteCommit, if_pos (contains_iff_mem.mpr stored)]
  have cleared := clearPending_unknown_le store.bumpUnknown fun slot => slot.hash == hash
  refine ⟨?_, Nat.lt_of_lt_of_le (Nat.lt_succ_self store.unknown) cleared⟩
  dsimp only [bumpLegacy]
  rw [clearPending_legacy]
  exact Nat.lt_succ_self store.legacy

theorem deleteCommit_missing {store : Store} {hash : Text} (missing : hash ∉ store.commits) :
    store.deleteCommit hash = store := by
  rw [deleteCommit, if_neg fun stored => missing (contains_iff_mem.mp stored)]

theorem deleteCommit_epochs_le : store.legacy ≤ (store.deleteCommit hash).legacy ∧
      store.unknown ≤ (store.deleteCommit hash).unknown := by
  by_cases stored : hash ∈ store.commits
  · have rises := deleteCommit_epochs stored
    omega
  · rw [deleteCommit_missing stored]
    omega

/-- A delete that costs an epoch nothing has found nothing. -/
theorem deleteCommits_epochs (hashes : List Text) :
    (store.legacy ≤ (store.deleteCommits hashes).legacy ∧
      store.unknown ≤ (store.deleteCommits hashes).unknown) ∧
    ((store.deleteCommits hashes).legacy = store.legacy ∨
      (store.deleteCommits hashes).unknown = store.unknown →
        store.deleteCommits hashes = store) := by
  induction hashes generalizing store with
  | nil => exact ⟨⟨Nat.le_refl _, Nat.le_refl _⟩, fun _ => rfl⟩
  | cons first rest ih =>
    have step := deleteCommit_epochs_le store first
    obtain ⟨_, still⟩ := ih (store.deleteCommit first)
    have unfold_ : store.deleteCommits (first :: rest) =
        (store.deleteCommit first).deleteCommits rest := rfl
    rw [unfold_]
    refine ⟨by omega, fun same => ?_⟩
    by_cases stored : first ∈ store.commits
    · have costs := deleteCommit_epochs stored
      omega
    · rw [deleteCommit_missing stored] at still same ⊢
      exact still same

theorem moveRef_epochs_le (track old head : Text) :
    store.legacy ≤ (store.moveRef track old head).legacy ∧
      store.unknown ≤ (store.moveRef track old head).unknown := by
  constructor
  · dsimp only [moveRef]
    split <;> omega
  · dsimp only [moveRef]
    split <;> omega

theorem exec_epochs_le (statement : Statement) : store.legacy ≤ (store.exec statement).legacy ∧
      store.unknown ≤ (store.exec statement).unknown := by
  cases statement with
  | insertObject =>
    rw [exec, insertObject]
    split
    next => exact ⟨Nat.le_refl _, Nat.le_refl _⟩
    next => exact ⟨Nat.le_succ _, Nat.le_refl _⟩
  | insertCommit hash record =>
    refine ⟨?_, ?_⟩
    · rw [exec, insertCommit]
      split
      next => exact (beforeInsertCommit_legacy store hash record).ge
      next =>
        dsimp only
        split
        next => exact (beforeInsertCommit_legacy store hash record).ge
        next => exact Nat.le_trans (beforeInsertCommit_legacy store hash record).ge (Nat.le_succ _)
    · rw [exec, insertCommit_unknown]
      exact beforeInsertCommit_unknown_le store hash record
  | setRef track head =>
    rw [exec, setRef]
    split
    next => exact ⟨Nat.le_succ _, Nat.le_succ _⟩
    next =>
      refine ⟨?_, Nat.le_trans ?_ (clearPending_unknown_le _ _)⟩
      · rw [clearPending_legacy]
        exact (moveRef_epochs_le store track _ head).1
      · exact (moveRef_epochs_le store track _ head).2
  | deleteCommits hashes => exact (deleteCommits_epochs store hashes).1
  | deleteRef =>
    rw [exec, deleteRef]
    split
    next => exact ⟨Nat.le_succ _, Nat.le_succ _⟩
    next => exact ⟨Nat.le_refl _, Nat.le_refl _⟩

end Store

/-- The store some committed statements later. -/
abbrev Later : Store → Store → Prop :=
  Relation.ReflTransGen fun before after => ∃ statement, after = before.exec statement

theorem Later.epochs_le (later : Later before after) :
    before.legacy ≤ after.legacy ∧ before.unknown ≤ after.unknown := by
  induction later with
  | refl => exact ⟨Nat.le_refl _, Nat.le_refl _⟩
  | @tail middle _ _ step =>
    obtain ⟨statement, rfl⟩ := step
    have rises := middle.exec_epochs_le statement
    omega

theorem Later.commit (store : Store) (transaction : Transaction) :
    Later store (store.commit transaction) := by
  induction transaction generalizing store with
  | nil => exact .refl
  | cons statement _ ih => exact .head ⟨statement, rfl⟩ (ih (store.exec statement))

/-! ## The legacy epoch -/

namespace Store

variable {store : Store}

theorem inertHeadExtension_eq (inert : store.inertHeadExtension child track = true) :
    ∃ head record parent, store.refs[track]? = some head ∧
      store.commits[child]? = some record ∧ store.commits[head]? = some parent ∧
      record.parentHash = some head ∧ record.treeHash = parent.treeHash ∧ head ≠ child := by
  rw [inertHeadExtension] at inert
  split at inert
  next => cases inert
  next head isHead =>
    split at inert
    next record parent isRecord isParent =>
      simp only [Bool.and_eq_true, beq_iff_eq, bne_iff_ne] at inert
      exact ⟨head, record, parent, isHead, isRecord, isParent, inert.1.1.1.2, inert.2,
        inert.1.2.symm⟩
    next => cases inert

/-- One more commit, with the tree of the head under it, makes no tree reachable. -/
theorem ReachableTree.of_extension {before after : Store} {child head tree : Text}
    (isChild : after.commits[child]? = some record) (onHead : record.parentHash = some head)
    (isHead : before.IsHead head) (isParent : before.commits[head]? = some parent)
    (sameTree : record.treeHash = parent.treeHash)
    (commits : ∀ hash found, after.commits[hash]? = some found →
      hash = child ∨ before.commits[hash]? = some found)
    (heads : ∀ hash, after.IsHead hash → hash = child ∨ before.IsHead hash)
    (reachable : after.ReachableTree tree) : before.ReachableTree tree := by
  have under : before.Reachable head := .root isHead (parentOf_isSome.mpr ⟨parent, isParent⟩)
  have back : ∀ hash, after.Reachable hash → hash = child ∨ before.Reachable hash := by
    intro hash reach
    induction reach with
    | @root hash isRoot stored =>
      obtain ⟨found, isFound⟩ := parentOf_isSome.mp stored
      rcases commits hash found isFound with same | stored
      · exact .inl same
      · rcases heads hash isRoot with same | isRoot
        · exact .inl same
        · exact .inr (.root isRoot (parentOf_isSome.mpr ⟨found, stored⟩))
    | @next from_ up _ isUp stored ih =>
      obtain ⟨found, isFound, named⟩ := parentOf_eq_some.mp isUp
      by_cases same : from_ = child
      · rw [same, isChild] at isFound
        cases isFound
        rw [onHead] at named
        exact .inr (some.inj named ▸ under)
      · obtain ⟨next, isNext⟩ := parentOf_isSome.mp stored
        have isOld := (commits from_ found isFound).resolve_left same
        rcases commits up next isNext with isNew | stored
        · exact .inl isNew
        · exact .inr ((ih.resolve_left same).next (parentOf_eq_some.mpr ⟨found, isOld, named⟩)
            (parentOf_isSome.mpr ⟨next, stored⟩))
  obtain ⟨hash, found, reach, stored, rfl⟩ := reachable
  by_cases same : hash = child
  · rw [same, isChild] at stored
    cases stored
    exact ⟨head, parent, under, isParent, sameTree.symm⟩
  · exact ⟨hash, found, (back hash reach).resolve_left same,
      (commits hash found stored).resolve_left same, rfl⟩

theorem parentOf_congr {before after : Store} (commits : after.commits = before.commits) :
    after.parentOf = before.parentOf := by
  funext hash
  rw [parentOf, parentOf, commits]

theorem ReachableTree.congr {before after : Store} {tree : Text}
    (commits : after.commits = before.commits) (refs : after.refs = before.refs)
    (reachable : after.ReachableTree tree) : before.ReachableTree tree := by
  have heads : after.IsHead = before.IsHead := by
    funext hash
    rw [IsHead, IsHead, refs]
  obtain ⟨hash, record, reach, stored, isTree⟩ := reachable
  rw [Reachable, parentOf_congr commits, heads] at reach
  exact ⟨hash, record, reach, commits ▸ stored, isTree⟩

/-- The commit row of an insert that was not ignored. -/
theorem insertCommit_of_new {hash : Text} (record : CommitRecord) (free : hash ∉ store.commits) :
    (store.insertCommit hash record).commits = store.commits.insert hash record ∧
    (store.insertCommit hash record).refs = store.refs := by
  rw [insertCommit, if_neg fun known => free (contains_iff_mem.mp known)]
  dsimp only
  split
  · exact ⟨by rw [beforeInsertCommit_commits], beforeInsertCommit_refs store hash record⟩
  · exact ⟨by rw [bumpLegacy, beforeInsertCommit_commits],
      beforeInsertCommit_refs store hash record⟩

theorem get_insert_cases {commits : ExtTreeMap Text CommitRecord} {hash other : Text}
    (isFound : (commits.insert hash record)[other]? = some found) :
    other = hash ∨ commits[other]? = some found := by
  rw [get_insert] at isFound
  split at isFound
  next same => exact .inl same
  next => exact .inr isFound

theorem insertCommit_legacy {hash : Text} {record : CommitRecord}
    (still : (store.insertCommit hash record).legacy = store.legacy)
    (reachable : (store.insertCommit hash record).ReachableTree tree) :
    store.ReachableTree tree := by
  by_cases known : hash ∈ store.commits
  · rw [insertCommit, if_pos (contains_iff_mem.mpr known)] at reachable
    exact reachable.congr (beforeInsertCommit_commits store hash record)
      (beforeInsertCommit_refs store hash record)
  · obtain ⟨commits, refs⟩ := insertCommit_of_new record known
    rw [insertCommit, if_neg fun stored => known (contains_iff_mem.mp stored)] at still
    dsimp only at still
    split at still
    next inert =>
      obtain ⟨_, found, _, isHead, isFound, isParent, onHead, sameTree, other⟩ :=
        inertHeadExtension_eq inert
      dsimp only at isHead isFound isParent
      rw [beforeInsertCommit_refs] at isHead
      rw [beforeInsertCommit_commits, get_insert] at isFound isParent
      rw [if_pos rfl] at isFound
      rw [if_neg other] at isParent
      cases isFound
      have isChild : (store.insertCommit hash record).commits[hash]? = some record := by
        rw [commits, get_insert, if_pos rfl]
      refine reachable.of_extension isChild onHead ⟨record.trackId, isHead⟩ isParent sameTree ?_ ?_
      · intro other found isFound
        rw [commits] at isFound
        exact get_insert_cases isFound
      · rintro _ ⟨track, isOther⟩
        exact .inr ⟨track, refs ▸ isOther⟩
    next =>
      rw [bumpLegacy] at still
      have same := beforeInsertCommit_legacy store hash record
      dsimp only at still
      omega

theorem setRef_commits (store : Store) (track head : Text) :
    (store.setRef track head).commits = store.commits := by
  rw [setRef]
  split
  next => rfl
  next => exact clearPending_commits _ _

theorem setRef_refs (store : Store) (track head : Text) :
    (store.setRef track head).refs = store.refs.insert track head := by
  rw [setRef]
  split
  next => rfl
  next => exact clearPending_refs _ _

theorem setRef_legacy {track head tree : Text}
    (still : (store.setRef track head).legacy = store.legacy)
    (reachable : (store.setRef track head).ReachableTree tree) : store.ReachableTree tree := by
  have commits := setRef_commits store track head
  have refs := setRef_refs store track head
  rw [setRef] at still
  split at still
  next => exact absurd still (Nat.succ_ne_self _)
  next isOld =>
    rw [clearPending_legacy, moveRef] at still
    dsimp only at still
    split at still
    next moves =>
      rw [Bool.or_eq_true, beq_iff_eq] at moves
      rcases moves with rfl | inert
      · exact reachable.congr commits (refs.trans (insert_of_get isOld))
      · obtain ⟨_, _, _, isHead, isChild, isParent, onHead, sameTree, _⟩ :=
          inertHeadExtension_eq inert
        cases isOld.symm.trans isHead
        rw [← commits] at isChild
        refine reachable.of_extension isChild onHead ⟨track, isOld⟩ isParent sameTree ?_ ?_
        · intro other found isFound
          exact .inr (commits ▸ isFound)
        · rintro _ ⟨place, isOther⟩
          rw [refs, get_insert] at isOther
          split at isOther
          next => exact .inl (some.inj isOther).symm
          next => exact .inr ⟨place, isOther⟩
    next => exact absurd still (Nat.succ_ne_self _)

/-- While the legacy epoch stands still no tree becomes reachable. -/
theorem exec_legacy {statement : Statement} {tree : Text}
    (still : (store.exec statement).legacy = store.legacy)
    (reachable : (store.exec statement).ReachableTree tree) : store.ReachableTree tree := by
  cases statement with
  | insertObject =>
    rw [exec, insertObject] at still reachable
    split at still
    next known => rwa [if_pos known] at reachable
    next => exact absurd still (Nat.succ_ne_self _)
  | insertCommit => exact insertCommit_legacy still reachable
  | setRef => exact setRef_legacy still reachable
  | deleteCommits hashes =>
    rw [exec, (deleteCommits_epochs store hashes).2 (.inl still)] at reachable
    exact reachable
  | deleteRef =>
    rw [exec, deleteRef] at still reachable
    split at still
    next => exact absurd still (Nat.succ_ne_self _)
    next missing => rwa [if_neg missing] at reachable

end Store

theorem Later.legacy {before after : Store} (later : Later before after)
    (still : after.legacy = before.legacy) {tree : Text} (reachable : after.ReachableTree tree) :
    before.ReachableTree tree := by
  induction later with
  | refl => exact reachable
  | @tail middle _ run step ih =>
    obtain ⟨statement, rfl⟩ := step
    have first := (Later.epochs_le run).1
    have second := (middle.exec_epochs_le statement).1
    exact ih (by omega) (exec_legacy (by omega) reachable)

/-! ## The unknown epoch -/

/-- What a statement can do while the unknown epoch stands still. -/
inductive Quiet (before after : Store) : Prop
  | idle : after.commits = before.commits → after.refs = before.refs →
      after.pending = before.pending → Quiet before after
  | settle {slot : Pending} : after.commits = before.commits → after.refs = before.refs →
      before.pending = some slot → before.refs[slot.track]? = some slot.hash →
      after.pending = none → Quiet before after
  | insert {hash : Text} {record : CommitRecord} : hash ∉ before.commits →
      after.commits = before.commits.insert hash record → after.refs = before.refs →
      (∀ slot, before.pending = some slot → before.refs[slot.track]? = some slot.hash) →
      after.pending = some ⟨hash, record.trackId⟩ → Quiet before after
  | publish {track old head : Text} {record : CommitRecord} :
      after.commits = before.commits → after.refs = before.refs.insert track head →
      before.refs[track]? = some old → before.pending = some ⟨head, track⟩ →
      before.commits[head]? = some record → record.parentHash = some old →
      after.pending = none → Quiet before after

namespace Store

variable {store : Store}

/-- Clearing the slot costs nothing only for a published commit. -/
theorem clearPending_quiet {selects : Pending → Bool}
    (still : (store.clearPending selects).unknown = store.unknown) :
    ∀ slot, store.pending = some slot → selects slot = true →
      store.refs[slot.track]? = some slot.hash ∧ (store.clearPending selects).pending = none := by
  intro slot isSlot selected
  rw [clearPending, isSlot] at still ⊢
  dsimp only at still ⊢
  rw [if_pos selected] at still ⊢
  refine ⟨?_, rfl⟩
  dsimp only at still
  split at still
  next isPublished =>
    rw [published, Bool.and_eq_true, beq_iff_eq] at isPublished
    exact isPublished.1
  next => exact absurd still (Nat.succ_ne_self _)

theorem clearPending_pending {selects : Pending → Bool}
    (free : ∀ slot, store.pending = some slot → selects slot = false) :
    (store.clearPending selects).pending = store.pending := by
  rw [clearPending]
  split
  next => rfl
  next slot isSlot =>
    rw [if_neg (by simp [free slot isSlot])]

theorem publishes_eq (isPublish : store.publishes track old head = true) :
    store.pending = some ⟨head, track⟩ ∧
      ∃ record, store.commits[head]? = some record ∧ record.parentHash = some old := by
  rw [publishes] at isPublish
  split at isPublish
  next => cases isPublish
  next isSlot =>
    simp only [Bool.and_eq_true, beq_iff_eq, any_eq_true] at isPublish
    obtain ⟨⟨⟨⟨rfl, rfl⟩, _⟩, record, isRecord, _, onOld⟩, _⟩ := isPublish
    exact ⟨isSlot, record, isRecord, onOld⟩

theorem insertCommit_quiet {hash : Text} {record : CommitRecord}
    (still : (store.insertCommit hash record).unknown = store.unknown) :
    Quiet store (store.insertCommit hash record) := by
  rw [insertCommit_unknown, beforeInsertCommit] at still
  split at still
  next extends_ =>
    have free : hash ∉ store.commits := by
      rw [extendsHead, Bool.and_eq_true, Bool.not_eq_true'] at extends_
      intro known
      rw [contains_iff_mem.mpr known] at extends_
      exact absurd extends_.1 (by simp)
    obtain ⟨commits, refs⟩ := insertCommit_of_new record free
    have slot : (store.insertCommit hash record).pending = some ⟨hash, record.trackId⟩ := by
      rw [insertCommit, if_neg fun known => free (contains_iff_mem.mp known),
        beforeInsertCommit, if_pos extends_]
      dsimp only
      split <;> rfl
    refine .insert free commits refs (fun old isOld => ?_) slot
    exact (clearPending_quiet still old isOld rfl).1
  next =>
    have rises := clearPending_unknown_le store.bumpUnknown fun slot => slot.hash == hash
    rw [still] at rises
    exact absurd rises (Nat.not_succ_le_self _)

theorem setRef_quiet (still : (store.setRef track head).unknown = store.unknown) :
    Quiet store (store.setRef track head) := by
  have commits := setRef_commits store track head
  have refs := setRef_refs store track head
  cases isOld : store.refs[track]? with
  | none =>
    rw [setRef, isOld] at still
    exact absurd still (Nat.succ_ne_self _)
  | some old =>
    have isSet : store.setRef track head = (store.moveRef track old head).clearPending
        fun slot => slot.hash == head && slot.track == track := by
      rw [setRef, isOld]
    rw [isSet] at still commits refs ⊢
    have rises := (moveRef_epochs_le store track old head).2
    have cleared := clearPending_unknown_le (store.moveRef track old head)
      fun slot => slot.hash == head && slot.track == track
    have stands : ((store.moveRef track old head).clearPending
        fun slot => slot.hash == head && slot.track == track).unknown =
        (store.moveRef track old head).unknown := by
      omega
    have clears := clearPending_quiet stands
    have moves : (store.moveRef track old head).unknown = store.unknown := by omega
    dsimp only [moveRef] at moves
    split at moves
    next allowed =>
      rw [Bool.or_eq_true, beq_iff_eq] at allowed
      rcases allowed with rfl | isPublish
      · rw [insert_of_get isOld] at refs
        by_cases selected : ∃ slot, store.pending = some slot ∧
            (slot.hash == head && slot.track == track) = true
        · obtain ⟨slot, isSlot, selected⟩ := selected
          obtain ⟨isPublished, isCleared⟩ := clears slot isSlot selected
          dsimp only [moveRef] at isPublished
          rw [insert_of_get isOld] at isPublished
          exact .settle commits refs isSlot isPublished isCleared
        · have unselected : ∀ slot, (store.moveRef track head head).pending = some slot →
              (slot.hash == head && slot.track == track) = false := fun slot isSlot =>
            Bool.eq_false_iff.mpr fun chosen => selected ⟨slot, isSlot, chosen⟩
          exact .idle commits refs (clearPending_pending unselected)
      · obtain ⟨isSlot, _, isRecord, onOld⟩ := publishes_eq isPublish
        have isCleared := (clears ⟨head, track⟩ isSlot (by simp)).2
        exact .publish commits refs isOld isSlot isRecord onOld isCleared
    next => omega

/-- **What an unchanged unknown epoch allows.** -/
theorem exec_quiet {statement : Statement}
    (still : (store.exec statement).unknown = store.unknown) :
    Quiet store (store.exec statement) := by
  cases statement with
  | insertObject =>
    rw [exec, insertObject]
    split <;> exact .idle rfl rfl rfl
  | insertCommit => exact insertCommit_quiet still
  | setRef => exact setRef_quiet still
  | deleteCommits hashes =>
    rw [exec, (deleteCommits_epochs store hashes).2 (.inr still)]
    exact .idle rfl rfl rfl
  | deleteRef =>
    rw [exec, deleteRef] at still ⊢
    split at still
    next => exact absurd still (Nat.succ_ne_self _)
    next missing =>
      rw [if_neg missing]
      exact .idle rfl rfl rfl

end Store

/-! ## Since a store -/

/-- A chain of commits that the base does not have, from a commit up to another. -/
inductive Trail (base now : Store) : Text → Text → Prop
  | here {hash : Text} : hash ∉ base.commits → Trail base now hash hash
  | up {low parent hash : Text} : low ∉ base.commits → now.parentOf low = some (some parent) →
      Trail base now parent hash → Trail base now low hash

theorem Trail.mono
    (more : ∀ {hash parent}, before.parentOf hash = some parent → after.parentOf hash = some parent)
    {low hash : Text} (trail : Trail base before low hash) : Trail base after low hash := by
  induction trail with
  | here isNew => exact .here isNew
  | up isNew isParent _ ih => exact .up isNew (more isParent) ih

/-- What a store is after a base from which the unknown epoch stands still. -/
structure Since (base now : Store) : Prop where
  kept : ∀ {hash : Text} {record : CommitRecord},
    base.commits[hash]? = some record → now.commits[hash]? = some record
  /-- What is new is the pending commit, or hangs under a head by new commits. -/
  trailed : ∀ {hash : Text}, hash ∈ now.commits → hash ∉ base.commits →
    (∃ slot, now.pending = some slot ∧ slot.hash = hash) ∨
    ∃ track head : Text, now.refs[track]? = some head ∧ Trail base now head hash
  /-- A pending commit of the base means that nothing is new. -/
  waiting : ∀ {slot : Pending}, now.pending = some slot → slot.hash ∈ base.commits →
    now.commits = base.commits
  heads : ∀ {track head : Text}, base.refs[track]? = some head → head ∈ base.commits →
    ∃ current, now.refs[track]? = some current ∧
      Ancestry.Reach now.parentOf (· = current) head

theorem Store.mem_commits {store : Store} {hash : Text} :
    hash ∈ store.commits ↔ ∃ record, store.commits[hash]? = some record := by
  rw [ExtTreeMap.mem_iff_isSome_getElem?, isSome_iff_exists]

theorem Since.refl (base : Store) : Since base base where
  kept stored := stored
  trailed known isNew := absurd known isNew
  waiting _ _ := rfl
  heads isHead stored := ⟨_, isHead, .root rfl (parentOf_isSome.mpr (mem_commits.mp stored))⟩

theorem Since.mem {base now : Store} (since : Since base now) {hash : Text}
    (stored : hash ∈ base.commits) : hash ∈ now.commits := by
  obtain ⟨record, isRecord⟩ := mem_commits.mp stored
  exact mem_commits.mpr ⟨record, since.kept isRecord⟩

/-- The same commits and refs, with a slot that is the same or settled. -/
theorem Since.of_same (since : Since base before) (commits : after.commits = before.commits)
    (refs : after.refs = before.refs)
    (slot : after.pending = before.pending ∨ after.pending = none ∧
      ∀ slot, before.pending = some slot → before.refs[slot.track]? = some slot.hash) :
    Since base after := by
  have parents := parentOf_congr commits
  refine ⟨fun stored => commits ▸ since.kept stored, fun known isNew => ?_, fun isSlot isOld => ?_,
    fun isHead stored => ?_⟩
  · rcases since.trailed (commits ▸ known) isNew
      with ⟨held, isSlot, isHash⟩ | ⟨track, head, isHead, trail⟩
    · rcases slot with same | ⟨_, settled⟩
      · exact .inl ⟨held, same.trans isSlot, isHash⟩
      · refine .inr ⟨held.track, held.hash, refs ▸ settled held isSlot, ?_⟩
        rw [isHash]
        exact .here isNew
    · exact .inr ⟨track, head, refs ▸ isHead, trail.mono fun isParent => parents ▸ isParent⟩
  · rcases slot with same | ⟨none_, _⟩
    · exact commits.trans (since.waiting (same ▸ isSlot) isOld)
    · cases none_.symm.trans isSlot
  · obtain ⟨current, isCurrent, reach⟩ := since.heads isHead stored
    exact ⟨current, refs ▸ isCurrent, parents ▸ reach⟩

theorem Since.step (since : Since base before) (quiet : Quiet before after) : Since base after := by
  cases quiet with
  | idle commits refs slot => exact since.of_same commits refs (.inl slot)
  | @settle _ commits refs isSlot isHead cleared =>
    refine since.of_same commits refs (.inr ⟨cleared, fun other isOther => ?_⟩)
    rw [isSlot] at isOther
    exact some.inj isOther ▸ isHead
  | @insert _ _ free commits refs settled slot =>
    have more : ∀ {known : Text} {found : CommitRecord}, before.commits[known]? = some found →
        after.commits[known]? = some found := by
      intro known found isFound
      rw [commits, get_insert, if_neg, isFound]
      rintro rfl
      exact free (mem_commits.mpr ⟨found, isFound⟩)
    have parents : ∀ {known parent}, before.parentOf known = some parent →
        after.parentOf known = some parent := by
      intro known parent isParent
      obtain ⟨found, isFound, named⟩ := parentOf_eq_some.mp isParent
      exact parentOf_eq_some.mpr ⟨found, more isFound, named⟩
    refine ⟨fun stored => more (since.kept stored), fun known isNew => ?_, fun isSlot isOld => ?_,
      fun isHead stored => ?_⟩
    · rw [commits, mem_insert] at known
      rcases known with rfl | known
      · exact .inl ⟨_, slot, rfl⟩
      · rcases since.trailed known isNew with ⟨held, isSlot, rfl⟩ | ⟨track, head, isHead, trail⟩
        · exact .inr ⟨held.track, held.hash, refs ▸ settled held isSlot, .here isNew⟩
        · exact .inr ⟨track, head, refs ▸ isHead, trail.mono parents⟩
    · cases slot.symm.trans isSlot
      exact absurd (since.mem isOld) free
    · obtain ⟨current, isCurrent, reach⟩ := since.heads isHead stored
      refine ⟨current, refs ▸ isCurrent, reach.mono parents fun isRoot stored => ?_⟩
      obtain ⟨parent, isParent⟩ := isSome_iff_exists.mp stored
      exact .root isRoot (isSome_iff_exists.mpr ⟨parent, parents isParent⟩)
  | @publish track old head record commits refs isOld isSlot isRecord onOld cleared =>
    have parents := parentOf_congr commits
    have isParent : after.parentOf head = some (some old) :=
      parentOf_eq_some.mpr ⟨record, commits ▸ isRecord, onOld⟩
    have moved : after.refs[track]? = some head := by
      rw [refs, get_insert, if_pos rfl]
    refine ⟨fun stored => commits ▸ since.kept stored, fun known isNew => ?_, fun isSlot _ => ?_,
      fun {place first} isHead stored => ?_⟩
    · rcases since.trailed (commits ▸ known) isNew
        with ⟨_, isHeld, rfl⟩ | ⟨place, first, isFirst, trail⟩
      · cases isSlot.symm.trans isHeld
        exact .inr ⟨track, head, moved, .here isNew⟩
      · have trail := trail.mono fun {hash parent} isParent => parents.symm ▸ isParent
        by_cases same : place = track
        · rw [same, isOld] at isFirst
          cases isFirst
          refine .inr ⟨track, head, moved, .up (fun isBase => ?_) isParent trail⟩
          -- A pending commit of the base would leave nothing new.
          have nothing := since.waiting isSlot isBase
          exact isNew (nothing ▸ commits ▸ known)
        · refine .inr ⟨place, first, ?_, trail⟩
          rw [refs, get_insert, if_neg same]
          exact isFirst
    · cases cleared.symm.trans isSlot
    · obtain ⟨current, isCurrent, reach⟩ := since.heads isHead stored
      rw [← parents] at reach
      by_cases same : place = track
      · rw [same, isOld] at isCurrent
        cases isCurrent
        refine ⟨head, same ▸ moved, reach.mono (fun known => known) ?_⟩
        rintro _ rfl stored
        have start : Ancestry.Reach after.parentOf (· = head) head :=
          .root rfl (isSome_iff_exists.mpr ⟨_, isParent⟩)
        exact start.next isParent stored
      · refine ⟨current, ?_, reach⟩
        rw [refs, get_insert, if_neg same]
        exact isCurrent

theorem Later.since (later : Later before after) (still : after.unknown = before.unknown) :
    Since before after := by
  induction later with
  | refl => exact .refl before
  | @tail middle _ run step ih =>
    obtain ⟨statement, rfl⟩ := step
    have first := (Later.epochs_le run).2
    have second := (middle.exec_epochs_le statement).2
    exact (ih (by omega)).step (exec_quiet (by omega))

end NeigeCalm.Vcs
