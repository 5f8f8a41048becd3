import NeigeCalm.Library.Fallible
import NeigeCalm.Vcs.Epochs
import NeigeCalm.Vcs.Sweep

/-!
# The sweep deletes nothing reachable

What the collector has seen is closed: every tree it parsed is live with all its blobs.  So a
batch is safe when every reachable tree has been parsed, which each of the three ways through a
batch establishes for the store under its lock.
-/

namespace NeigeCalm.Vcs

open Library Interleaving List Option Std Fallible OrderedMap

/-! ## Observations -/

/-- Every tree seen is live, and so are the blobs it names. -/
def Observed.Closed (content : Text → Body) (observed : Observed) : Prop :=
  ∀ tree ∈ observed.trees, tree ∈ observed.live ∧
    ∀ byteLen entries, content tree = .tree byteLen (some entries) →
      ∀ blob ∈ entries, blob ∈ observed.live

/-- A later observation that has also seen some trees. -/
structure Observed.Grows (content : Text → Body) (before after : Observed)
    (trees : List TreeMeta) : Prop where
  closed : before.Closed content → after.Closed content
  kept : ∀ tree ∈ before.trees, tree ∈ after.trees
  seen : ∀ tree ∈ trees, tree.hash ∈ after.trees

namespace Observed

theorem Grows.refl (observed : Observed) : observed.Grows content observed [] :=
  ⟨fun closed => closed, fun _ there => there, nofun⟩

theorem Grows.trans {first second third : Observed} (one : first.Grows content second some_)
    (two : second.Grows content third more) : first.Grows content third (some_ ++ more) := by
  refine ⟨fun closed => two.closed (one.closed closed),
    fun tree there => two.kept _ (one.kept _ there),
    fun tree among => ?_⟩
  rcases mem_append.mp among with earlier | later
  · exact two.kept _ (one.seen tree earlier)
  · exact two.seen tree later

theorem grows_parse {observed after : Observed} (parsed : observed.parse content tree = .ok after) :
    observed.Grows content after [tree] := by
  rw [parse] at parsed
  split at parsed
  next entries isTree =>
    cases parsed
    refine ⟨fun closed other isSeen => ?_, fun other isSeen => ?_, fun other among => ?_⟩
    · have lives : ∀ hash, hash ∈ observed.live ∨ hash ∈ entries →
          hash ∈ (observed.live.insertMany entries).insert tree.hash := by
        intro hash either
        rw [mem_set_insert, mem_set_insertMany]
        exact .inr either
      rw [observe, mem_set_insert] at isSeen
      rcases isSeen with same | before
      · refine ⟨(mem_set_insert _ _ _).mpr (.inl same), ?_⟩
        intro byteLen' entries' isBody blob named
        rw [same, isTree] at isBody
        cases isBody
        exact lives blob (.inr named)
      · obtain ⟨isLive, blobs⟩ := closed other before
        refine ⟨lives other (.inl isLive), fun byteLen' entries' isBody blob named => ?_⟩
        exact lives blob (.inl (blobs byteLen' entries' isBody blob named))
    · exact (mem_set_insert _ _ _).mpr (.inr isSeen)
    · rw [mem_singleton.mp among]
      exact (mem_set_insert _ _ _).mpr (.inl rfl)
  next => cases parsed
  next => cases parsed

theorem grows_foldlM {observed after : Observed} {trees : List TreeMeta}
    (parsed : trees.foldlM (parse content) observed = .ok after) :
    observed.Grows content after trees := by
  induction trees generalizing observed with
  | nil => exact Except.ok.inj parsed ▸ .refl observed
  | cons _ _ ih =>
    rw [foldlM_cons] at parsed
    obtain ⟨_, first, later⟩ := bind_eq_ok.mp parsed
    exact (grows_parse first).trans (ih later)

end Observed

variable {before after : Frontier} {observed : Observed} {store : Store}

theorem grows_observeBatch {observed after : Observed}
    (seen : observeBatch content store trees observed = .ok after) :
    observed.Grows content after trees := by
  rw [observeBatch] at seen
  split at seen
  next => cases seen
  next => exact Observed.grows_foldlM seen

/-! ## Reads of the store -/

namespace Store

theorem mem_roots {hash : Text} :
    hash ∈ store.roots ↔ store.IsHead hash ∧ hash ∈ store.commits := by
  rw [roots, mem_set_ofList, mem_filter, mem_heads, ExtTreeMap.contains_iff_mem]

theorem readPending_ok (read : store.readPending = .ok slot) :
    slot = store.pending ∧ ∀ held, slot = some held → held.hash ∈ store.commits := by
  rw [readPending] at read
  split at read
  next none_ =>
    cases read
    exact ⟨none_.symm, nofun⟩
  next isHeld =>
    split at read
    next stored =>
      cases read
      refine ⟨isHeld.symm, fun other same => ?_⟩
      cases same
      rw [Option.any_eq_true] at stored
      obtain ⟨record, isRecord, _⟩ := stored
      exact mem_commits.mpr ⟨record, isRecord⟩
    next => cases read

theorem checkedTree_hash {hash : Text} (checked : store.checkedTree content hash = .ok tree) :
    tree.hash = hash := by
  rw [checkedTree] at checked
  split at checked
  next =>
    cases checked
    rfl
  next => cases checked

theorem reachableTrees_cover {trees : List TreeMeta}
    (read : store.reachableTrees content = .ok trees) {hash : Text}
    (reachable : store.ReachableTree hash) : ∃ tree ∈ trees, tree.hash = hash := by
  obtain ⟨tree, among, checked⟩ := exists_of_mapM read reachable.mem_hashes
  exact ⟨tree, among, checkedTree_hash checked⟩

end Store

/-! ## The frontier walk -/

/-- A commit is known, read, or to be read. -/
def Met (known visited todo : ExtTreeSet Text) (hash : Text) : Prop :=
  hash ∈ known ∨ hash ∈ visited ∨ hash ∈ todo

theorem Met.mono {hash : Text} (met : Met known visited todo hash)
    (kept : hash ∈ todo → hash ∈ later) :
    Met known visited later hash :=
  met.imp_right (Or.imp_right kept)

/-- The tree of a commit is found and its parent met. -/
def Frontier.Reads (known visited : ExtTreeSet Text) (frontier : Frontier)
    (record : CommitRecord) : Prop :=
  (∃ tree, frontier.trees[record.treeHash]? = some tree) ∧
    ∀ parent, record.parentHash = some parent → Met known visited frontier.todo parent

/-- What a round finds stays, and every tree stands under its hash. -/
structure Frontier.Advances (before after : Frontier) : Prop where
  trees : ∀ {hash : Text} {tree : TreeMeta}, before.trees[hash]? = some tree →
    ∃ tree, after.trees[hash]? = some tree
  todo : ∀ {hash : Text}, hash ∈ before.todo → hash ∈ after.todo
  keyed : (∀ (hash : Text) (tree : TreeMeta), before.trees[hash]? = some tree → tree.hash = hash) →
    ∀ (hash : Text) (tree : TreeMeta), after.trees[hash]? = some tree → tree.hash = hash

theorem Frontier.Reads.mono (reads : before.Reads known visited record)
    (advances : before.Advances after) : after.Reads known visited record := by
  obtain ⟨⟨_, isTree⟩, parents⟩ := reads
  exact ⟨advances.trees isTree, fun parent isParent => (parents parent isParent).mono advances.todo⟩

theorem Frontier.row_spec {record : CommitRecord}
    (read : before.row content store visited known record = .ok after) :
    before.Advances after ∧ after.Reads known visited record := by
  obtain ⟨tree, checked, same⟩ := bind_eq_ok.mp read
  have isHash := Store.checkedTree_hash checked
  cases same
  refine ⟨⟨fun {hash found} isFound => ?_, fun {hash} isTodo => ?_,
    fun keyed hash found isFound => ?_⟩, ?_, fun parent isParent => ?_⟩
  · rw [get_insert]
    split
    next => exact ⟨tree, rfl⟩
    next => exact ⟨found, isFound⟩
  · dsimp only
    split
    next => exact isTodo
    next parent _ =>
      split
      next => exact isTodo
      next => exact (mem_set_insert _ _ _).mpr (.inr isTodo)
  · rw [get_insert] at isFound
    split at isFound
    next same => rw [same, ← some.inj isFound]
    next => exact keyed hash found isFound
  · exact ⟨tree, by rw [get_insert, if_pos isHash.symm]⟩
  · rw [isParent]
    dsimp only
    split
    next met =>
      rw [Bool.or_eq_true, ExtTreeSet.contains_iff_mem, ExtTreeSet.contains_iff_mem] at met
      rcases met with isVisited | isKnown
      · exact .inr (.inl isVisited)
      · exact .inl isKnown
    next => exact .inr (.inr ((mem_set_insert _ _ _).mpr (.inl rfl)))

theorem Frontier.rows_spec {records : List CommitRecord}
    (read : records.foldlM (Frontier.row content store visited known) before = .ok after) :
    before.Advances after ∧ ∀ record ∈ records, after.Reads known visited record := by
  induction records generalizing before with
  | nil =>
    cases read
    exact ⟨⟨fun isTree => ⟨_, isTree⟩, fun isTodo => isTodo, fun keyed => keyed⟩, nofun⟩
  | cons _ _ ih =>
    rw [foldlM_cons] at read
    obtain ⟨_, first, later⟩ := bind_eq_ok.mp read
    obtain ⟨one, reads⟩ := row_spec first
    obtain ⟨two, others⟩ := ih later
    refine ⟨⟨fun isTree => ?_, fun isTodo => two.todo (one.todo isTodo),
      fun keyed => two.keyed (one.keyed keyed)⟩, fun other among => ?_⟩
    · obtain ⟨_, isMiddle⟩ := one.trees isTree
      exact two.trees isMiddle
    · rcases mem_cons.mp among with rfl | later
      · exact reads.mono two
      · exact others other later

/-- A walk under way: the new heads are met, and the commits read are. -/
structure Reading (store : Store) (known visited : ExtTreeSet Text) (roots : Text → Prop)
    (frontier : Frontier) : Prop where
  roots : ∀ hash, roots hash → Met known visited frontier.todo hash
  reads : ∀ hash ∈ visited, ∀ record, store.commits[hash]? = some record →
    frontier.Reads known visited record
  keyed : ∀ (hash : Text) (tree : TreeMeta), frontier.trees[hash]? = some tree → tree.hash = hash

/-- Moving a batch from the commits to read to those read. -/
theorem Met.batch {count : Nat} {hash : Text} (met : Met known visited todo hash) :
    Met known (visited.insertMany (todo.toList.take count)) (.ofList (todo.toList.drop count))
      hash := by
  rcases met with isKnown | isVisited | isTodo
  · exact .inl isKnown
  · exact .inr (.inl ((mem_set_insertMany _ _ _).mpr (.inl isVisited)))
  · rw [← ExtTreeSet.mem_toList, ← take_append_drop count todo.toList, mem_append] at isTodo
    rcases isTodo with now | later
    · exact .inr (.inl ((mem_set_insertMany _ _ _).mpr (.inr now)))
    · exact .inr (.inr ((mem_set_ofList _ _).mpr later))

theorem Reading.round {frontier next : Frontier} {roots : Text → Prop} {count : Nat}
    (reading : Reading store known visited roots frontier)
    (read : ((frontier.todo.toList.take count).filterMap fun hash => store.commits[hash]?).foldlM
      (Frontier.row content store (visited.insertMany (frontier.todo.toList.take count)) known)
      { frontier with todo := .ofList (frontier.todo.toList.drop count) } = .ok next) :
    Reading store known (visited.insertMany (frontier.todo.toList.take count)) roots next := by
  obtain ⟨advances, rows⟩ := Frontier.rows_spec read
  have onward : ∀ {hash}, Met known visited frontier.todo hash →
      Met known (visited.insertMany (frontier.todo.toList.take count)) next.todo hash :=
    fun met => met.batch.mono advances.todo
  refine ⟨fun hash isRoot => onward (reading.roots hash isRoot),
    fun hash isRead record stored => ?_,
    advances.keyed reading.keyed⟩
  rcases (mem_set_insertMany _ _ _).mp isRead with before | now
  · obtain ⟨⟨_, isTree⟩, parents⟩ := reading.reads hash before record stored
    exact ⟨advances.trees isTree, fun parent isParent => onward (parents parent isParent)⟩
  · exact rows record (mem_filterMap.mpr ⟨hash, now, stored⟩)

/-- What a walk that ends has read. -/
structure Walked (store : Store) (known : ExtTreeSet Text) (roots : Text → Prop)
    (trees : List TreeMeta) (read : Text → Prop) : Prop where
  roots : ∀ hash, roots hash → hash ∈ known ∨ read hash
  trees : ∀ hash record, read hash → store.commits[hash]? = some record →
    ∃ tree ∈ trees, tree.hash = record.treeHash
  parents : ∀ hash parent, read hash → store.parentOf hash = some (some parent) →
    parent ∈ known ∨ read parent

theorem Reading.reconcileRounds {frontier : Frontier} {roots : Text → Prop} {rounds : Nat}
    (reading : Reading store known visited roots frontier)
    (done : reconcileRounds content store known rounds visited frontier = .ok (some trees)) :
    ∃ read, Walked store known roots trees read := by
  -- Nothing is left to read.
  have finish : ∀ {visited frontier}, Reading store known visited roots frontier →
      frontier.todo.isEmpty = true → frontier.trees.toList.map Prod.snd = trees →
        ∃ read, Walked store known roots trees read := by
    intro visited frontier reading nothing isTrees
    have settled : ∀ {hash}, Met known visited frontier.todo hash →
        hash ∈ known ∨ hash ∈ visited := by
      intro hash met
      rcases met with isKnown | isVisited | isTodo
      · exact .inl isKnown
      · exact .inr isVisited
      · rw [ExtTreeSet.isEmpty_iff.mp nothing] at isTodo
        exact absurd isTodo ExtTreeSet.not_mem_empty
    refine ⟨(· ∈ visited), fun hash isRoot => settled (reading.roots hash isRoot),
      fun hash record isRead stored => ?_, fun hash parent isRead isParent => ?_⟩
    · obtain ⟨⟨tree, isTree⟩, _⟩ := reading.reads hash isRead record stored
      refine ⟨tree, ?_, reading.keyed _ tree isTree⟩
      rw [← isTrees]
      exact mem_map.mpr
        ⟨(record.treeHash, tree), ExtTreeMap.mem_toList_iff_getElem?_eq_some.mpr isTree, rfl⟩
    · obtain ⟨record, stored, named⟩ := Store.parentOf_eq_some.mp isParent
      exact settled ((reading.reads hash isRead record stored).2 parent named)
  induction rounds generalizing visited frontier with
  | zero =>
    rw [Vcs.reconcileRounds] at done
    split at done
    next nothing => exact finish reading nothing (some.inj (Except.ok.inj done))
    next => cases done
  | succ _ ih =>
    rw [Vcs.reconcileRounds] at done
    split at done
    next nothing => exact finish reading nothing (some.inj (Except.ok.inj done))
    next =>
      dsimp only at done
      split at done
      next => cases done
      next =>
        obtain ⟨_, read, done⟩ := bind_eq_ok.mp done
        exact ih (reading.round read) done

theorem reconcile_walked {proof : Certificate} {current : Snapshot}
    (done : reconcile content store proof current = .ok (some trees)) :
    proof.snapshot.pending = current.pending ∧
      ∃ read, Walked store proof.snapshot.roots (· ∈ current.roots) trees read := by
  rw [reconcile] at done
  split at done
  next => cases done
  next same =>
    refine ⟨not_not.mp same, Reading.reconcileRounds ⟨fun hash isRoot => ?_, ?_, ?_⟩ done⟩
    · by_cases isKnown : hash ∈ proof.snapshot.roots
      · exact .inl isKnown
      · refine .inr (.inr ((mem_set_ofList _ _).mpr (mem_filter.mpr
          ⟨ExtTreeSet.mem_toList.mpr isRoot, ?_⟩)))
        simpa [← ExtTreeSet.contains_iff_mem] using isKnown
    · intro hash isRead
      exact absurd isRead ExtTreeSet.not_mem_empty
    · intro hash tree isTree
      simp at isTree

/-! ## What a certificate is worth -/

/-- Nothing is lost between stores of one unknown epoch. -/
theorem Later.between (one : Later first second) (two : Later second third)
    (three : Later third now) (still : now.unknown = first.unknown) :
    Since first third ∧ Since second third ∧ Since third now := by
  have epochs₁ := (epochs_le one).2
  have epochs₂ := (epochs_le two).2
  have epochs₃ := (epochs_le three).2
  exact ⟨since (one.trans two) (by omega), since two (by omega), since three (by omega)⟩

/-- While the unknown epoch stands still, what is reachable was reachable when the trees were
read, or was read by a walk down to the heads known then. -/
theorem reachable_of_walked {known : Snapshot} {read : Text → Prop} {hash : Text}
    (one : Later first second) (two : Later second third) (three : Later third now)
    (still : now.unknown = first.unknown) (roots : known.roots = first.roots)
    (slot : second.readPending = .ok known.pending) (same : known.pending = now.pending)
    (walked : Walked now known.roots (· ∈ now.roots) trees read) (reach : now.Reachable hash) :
    read hash ∨ third.Reachable hash := by
  obtain ⟨upTo, middle, since⟩ := Later.between one two three still
  -- A head known then is still under a head when the trees are read.
  have ofKnown : ∀ {hash}, hash ∈ known.roots → third.Reachable hash := by
    intro hash isKnown
    rw [roots, Store.mem_roots] at isKnown
    obtain ⟨⟨track, isHead⟩, stored⟩ := isKnown
    obtain ⟨_, isCurrent, reach⟩ := upTo.heads isHead stored
    refine reach.mono (fun parent => parent) ?_
    rintro _ rfl stored
    exact .root ⟨track, isCurrent⟩ stored
  -- A chain of commits new since then is read to its end.
  have ofTrail : ∀ {low hash}, Trail third now low hash → hash ∈ now.commits →
      low ∈ known.roots ∨ read low → read hash := by
    intro low hash trail
    have fresh : ∀ {hash}, hash ∉ third.commits → hash ∈ known.roots ∨ read hash → read hash := by
      intro hash isNew either
      refine either.resolve_left fun isKnown => isNew ?_
      rw [roots, Store.mem_roots] at isKnown
      exact upTo.mem isKnown.2
    induction trail with
    | here isNew => exact fun _ either => fresh isNew either
    | up isNew isParent _ ih =>
      exact fun stored either => ih stored (walked.parents _ _ (fresh isNew either) isParent)
  induction reach with
  | @root hash isHead stored =>
    rcases walked.roots hash (Store.mem_roots.mpr ⟨isHead, Store.mem_commits.mpr
      (Store.parentOf_isSome.mp stored)⟩) with isKnown | isRead
    · exact .inr (ofKnown isKnown)
    · exact .inl isRead
  | @next low hash _ isParent stored ih =>
    have known' := Store.mem_commits.mpr (Store.parentOf_isSome.mp stored)
    rcases ih with isRead | reach
    · rcases walked.parents low hash isRead isParent with isKnown | isRead
      · exact .inr (ofKnown isKnown)
      · exact .inl isRead
    · by_cases isOld : hash ∈ third.commits
      · refine .inr (reach.next ?_ (Store.parentOf_isSome.mpr (Store.mem_commits.mp isOld)))
        obtain ⟨record, isRecord⟩ := Store.parentOf_isSome.mp reach.stored
        obtain ⟨_, isFound, named⟩ := Store.parentOf_eq_some.mp isParent
        rw [since.kept isRecord] at isFound
        exact Store.parentOf_eq_some.mpr ⟨record, isRecord, some.inj isFound ▸ named⟩
      · rcases since.trailed known' isOld with ⟨held, isHeld, rfl⟩ | ⟨track, head, isHead, trail⟩
        · -- The pending commit is the one read then, so it was stored.
          obtain ⟨_, isStored⟩ := Store.readPending_ok slot
          exact absurd (middle.mem (isStored held (same.trans isHeld))) isOld
        · refine .inl (ofTrail trail known' ?_)
          have isNow : head ∈ now.commits := by
            cases trail with
            | here => exact known'
            | up _ isParent =>
              exact Store.mem_commits.mpr (Store.parentOf_isSome.mp
                (isSome_iff_exists.mpr ⟨_, isParent⟩))
          exact walked.roots head (Store.mem_roots.mpr ⟨⟨track, isHead⟩, isNow⟩)

/-- Every reachable tree has been seen. -/
def Observed.Sees (observed : Observed) (store : Store) : Prop :=
  ∀ tree, store.ReachableTree tree → tree ∈ observed.trees

/-- An observation whose certificates hold for the store. -/
structure Observed.Certified (content : Text → Body) (observed : Observed) (store : Store) :
    Prop where
  closed : observed.Closed content
  legacy : ∀ epoch, observed.proof.legacy = some epoch →
    ∃ base, Later base store ∧ base.legacy = epoch ∧ observed.Sees base
  frontier : ∀ proof, observed.proof.frontier = some proof →
    ∃ first second third, Later first second ∧ Later second third ∧ Later third store ∧
      first.unknown = proof.unknown ∧ proof.snapshot.roots = first.roots ∧
      second.readPending = .ok proof.snapshot.pending ∧ observed.Sees third

theorem Observed.Certified.later {before after : Store}
    (certified : observed.Certified content before) (later : Later before after) :
    observed.Certified content after := by
  refine ⟨certified.closed, fun epoch isEpoch => ?_, fun proof isProof => ?_⟩
  · obtain ⟨base, run, isBase, sees⟩ := certified.legacy epoch isEpoch
    exact ⟨base, run.trans later, isBase, sees⟩
  · obtain ⟨first, second, third, one, two, three, rest⟩ := certified.frontier proof isProof
    exact ⟨first, second, third, one, two, three.trans later, rest⟩

/-- The trees of a covering with those seen before are all the reachable ones. -/
theorem coverage_sees {observed after : Observed} {current : List TreeMeta × Bool}
    {delta : List TreeMeta} (certified : observed.Certified content store)
    (roots : snapshot.roots = store.roots) (slot : snapshot.pending = store.pending)
    (covered : coverage content store snapshot observed = .ok (some current))
    (isDelta : inlineDelta observed current = some delta)
    (grows : observed.Grows content after delta) : after.Sees store := by
  have delta_spec : ∀ tree ∈ current.1, (current.2 = true ∧ tree.hash ∈ observed.trees) ∨
      tree ∈ delta := by
    intro tree among
    rw [inlineDelta] at isDelta
    split at isDelta
    next => cases isDelta
    next =>
      cases isDelta
      by_cases skip : (!current.2 || !observed.trees.contains tree.hash) = true
      · exact .inr (mem_filter.mpr ⟨among, skip⟩)
      · refine .inl ?_
        simpa [← ExtTreeSet.contains_iff_mem] using skip
  have seen : ∀ tree ∈ current.1, tree.hash ∈ after.trees := by
    intro tree among
    rcases delta_spec tree among with ⟨_, before⟩ | isNew
    · exact grows.kept _ before
    · exact grows.seen tree isNew
  intro hash reachable
  rw [coverage] at covered
  split at covered
  next isEpoch =>
    obtain ⟨_, later, same, sees⟩ := certified.legacy _ isEpoch
    exact grows.kept hash (sees hash (Later.legacy later same.symm reachable))
  next =>
    split at covered
    next proof isProof =>
      obtain ⟨isProof, sameEpoch⟩ := filter_eq_some_iff.mp isProof
      obtain ⟨_, walked, same⟩ := bind_eq_ok.mp covered
      obtain ⟨_, rfl, rfl⟩ := map_eq_some_iff.mp (Except.ok.inj same)
      obtain ⟨sameSlot, read, walked⟩ := reconcile_walked walked
      rw [roots] at walked
      obtain ⟨_, _, _, one, two, three, epoch, isRoots, isSlot, sees⟩ :=
        certified.frontier proof isProof
      obtain ⟨commit, record, reach, stored, rfl⟩ := reachable
      have still := (beq_iff_eq.mp sameEpoch).symm.trans epoch.symm
      rcases reachable_of_walked one two three still isRoots isSlot (sameSlot.trans slot) walked
        reach with isRead | before
      · obtain ⟨tree, among, named⟩ := walked.trees commit record isRead stored
        exact named ▸ seen tree among
      · obtain ⟨_, isOld⟩ := Store.parentOf_isSome.mp before.stored
        cases stored.symm.trans ((Later.between one two three still).2.2.kept isOld)
        exact grows.kept _ (sees _ ⟨commit, record, before, isOld, rfl⟩)
    next =>
      obtain ⟨_, read, same⟩ := bind_eq_ok.mp covered
      cases same
      obtain ⟨tree, among, named⟩ := Store.reachableTrees_cover read reachable
      exact named ▸ seen tree among

/-! ## The program -/

/-- A deleted object is neither a reachable tree nor a blob that one names. -/
def Deletion.Safe (content : Text → Body) (deletion : Deletion) : Prop :=
  ∀ hash ∈ deletion.removed, ¬ deletion.store.ReachableTree hash ∧
    ∀ tree byteLen entries, deletion.store.ReachableTree tree →
      content tree = .tree byteLen (some entries) → hash ∉ entries

theorem later_of_acts {before after : Store} (acts : Acts Store.commit before after) :
    Later before after := by
  induction acts with
  | refl => exact .refl
  | @tail middle _ _ step ih =>
    obtain ⟨transaction, rfl⟩ := step
    exact ih.trans (Later.commit middle transaction)

/-- Something held of an earlier store. -/
def Past (held : Store → Prop) (store : Store) : Prop :=
  ∃ earlier, held earlier ∧ Later earlier store

theorem Past.later {held : Store → Prop} {before after : Store} (past : Past held before)
    (later : Later before after) : Past held after := by
  obtain ⟨earlier, isHeld, run⟩ := past
  exact ⟨earlier, isHeld, run.trans later⟩

section Triples

variable {α : Type}

/-- A read outside the lock is of a store between what held before and now. -/
theorem outside_past (read : Store → α) :
    Triple good (Past held) (outside Store.commit read : Sweep α)
      fun value => Past fun store => read store = value ∧ Past held store :=
  .outside fun _ now past acts => ⟨now, ⟨rfl, past.later (later_of_acts acts)⟩, .refl⟩

theorem orFail_past {holds : Store → Prop} :
    Triple good holds (orFail result : Sweep α) fun value store =>
      result = .ok value ∧ holds store :=
  .orFail fun _ _ isResult before => ⟨isResult, before⟩

theorem locked_reads {holds : Store → Prop} (read : Store → α) :
    Triple good holds (locked read : Sweep α) fun value store => read store = value ∧ holds store :=
  .locked fun _ before => ⟨rfl, before⟩

theorem readEpochs_past : Triple good (Past held) readEpochs fun epochs =>
    Past fun store => store.unknown = epochs.unknown ∧
      Past (fun store => store.legacy = epochs.legacy ∧ Past held store) store :=
  (outside_past Store.legacy).bind fun _ => (outside_past Store.unknown).bind fun _ =>
    .pure fun _ past => past

theorem observeExternal_past {fuel : Nat} (enough : trees.length ≤ fuel) :
    Triple good (Past held)
      (observeExternal content fuel trees observed) fun after store =>
        Past held store ∧ observed.Grows content after trees := by
  induction fuel generalizing trees observed with
  | zero =>
    obtain rfl := length_eq_zero_iff.mp (Nat.le_zero.mp enough)
    exact .pure fun _ past => ⟨past, .refl observed⟩
  | succ fuel ih =>
    rw [observeExternal]
    refine (outside_past _).bind fun result => orFail_past.bind fun middle => ?_
    have grew : ∀ store, (result = .ok middle ∧ Past (fun store =>
        observeBatch content store (trees.take treeReadBatch) observed = result ∧
          Past held store) store) → observed.Grows content middle (trees.take treeReadBatch) := by
      rintro store ⟨rfl, _, ⟨seen, _⟩, _⟩
      exact grows_observeBatch seen
    have fewer : (trees.drop treeReadBatch).length ≤ fuel := by
      rw [length_drop, treeReadBatch]
      omega
    refine .assume grew fun grows => .weaken ?_ ((ih fewer).mono ?_)
    · rintro store ⟨_, _, ⟨_, past⟩, later⟩
      exact past.later later
    · rintro _ _ ⟨past, more⟩
      have all := grows.trans more
      rw [take_append_drop] at all
      exact ⟨past, all⟩

/-- **A full observation is certified.** -/
theorem prepareFull_certified (closed : observed.Closed content) :
    Triple good (Past held) (prepareFull content observed) fun after store =>
      after.Certified content store := by
  rw [prepareFull]
  refine readEpochs_past.bind fun before => (outside_past _).bind fun roots =>
    (outside_past _).bind fun slot => orFail_past.bind fun pending => ?_
  refine .assume (fun _ past => past.1) fun isSlot => .weaken (fun _ past => past.2) ?_
  refine (outside_past _).bind fun found => orFail_past.bind fun trees => ?_
  refine .assume (fun _ past => past.1) fun isTrees => .weaken (fun _ past => past.2) ?_
  refine (observeExternal_past (Nat.le_refl _)).bind fun seen => ?_
  refine .assume (fun _ past => past.2) fun grows => .weaken (fun _ past => past.1) ?_
  refine readEpochs_past.bind fun after => .pure ?_
  -- The reads in order: epochs, roots, pending slot, trees, and the epochs again.
  rintro _ ⟨_, ⟨_, _, ⟨_, s₅, ⟨trees₅, s₄, ⟨slot₄, s₃, ⟨roots₃, _, ⟨_, _,
    ⟨legacy₁, -⟩, r₁⟩, r₂⟩, r₃⟩, r₄⟩, r₅⟩, r₇⟩, r₈⟩
  have sees : ∀ proof, Observed.Sees { seen with proof } s₅ := by
    intro proof hash reachable
    obtain ⟨tree, among, named⟩ := Store.reachableTrees_cover (trees₅.trans isTrees) reachable
    exact named ▸ grows.seen tree among
  have e₁ := Later.epochs_le r₁
  have e₂ := Later.epochs_le r₂
  have e₃ := Later.epochs_le r₃
  have e₄ := Later.epochs_le r₄
  have e₅ := Later.epochs_le r₅
  have e₇ := Later.epochs_le r₇
  refine ⟨grows.closed closed, fun epoch isEpoch => ?_, fun proof isProof => ?_⟩
  · dsimp only [Certificates.bracket] at isEpoch
    split at isEpoch
    next same =>
      cases isEpoch
      exact ⟨s₅, r₅.trans (r₇.trans r₈), by omega, sees _⟩
    next => cases isEpoch
  · dsimp only [Certificates.bracket] at isProof
    split at isProof
    next same =>
      cases isProof
      exact ⟨s₃, s₄, s₅, r₃, r₄, r₅.trans (r₇.trans r₈), by dsimp only; omega, roots₃.symm,
        slot₄.trans isSlot, sees _⟩
    next => cases isProof

theorem prepareValidation_certified :
    Triple good (observed.Certified content) (prepareValidation content observed)
      fun after store => after.Certified content store := by
  rw [prepareValidation]
  have start : ∀ store, observed.Certified content store →
      Past (observed.Certified content) store := fun store certified => ⟨store, certified, .refl⟩
  refine .weaken start (readEpochs_past.bind fun current => ?_)
  have certified : ∀ store, Past (fun store => store.unknown = current.unknown ∧
      Past (fun store => store.legacy = current.legacy ∧
        Past (observed.Certified content) store) store) store →
      observed.Certified content store := by
    rintro store ⟨_, ⟨_, _, ⟨_, _, certified, r₀⟩, r₁⟩, r₂⟩
    exact certified.later (r₀.trans (r₁.trans r₂))
  split
  next => exact .pure certified
  next =>
    refine .assume (fun store past => (certified store past).closed) fun closed => ?_
    exact .weaken (fun store past => start store (certified store past))
      (prepareFull_certified closed)

end Triples

/-! ## Batches -/

namespace Store

theorem deleteObject_same (store : Store) (hash : Text) :
    (store.deleteObject hash).commits = store.commits ∧
      (store.deleteObject hash).refs = store.refs ∧
      (store.deleteObject hash).pending = store.pending := by
  rw [deleteObject]
  split <;> exact ⟨rfl, rfl, rfl⟩

theorem deleteObjects_same (store : Store) (hashes : List Text) :
    (store.deleteObjects hashes).commits = store.commits ∧
      (store.deleteObjects hashes).refs = store.refs ∧
      (store.deleteObjects hashes).pending = store.pending := by
  induction hashes generalizing store with
  | nil => exact ⟨rfl, rfl, rfl⟩
  | cons hash _ ih =>
    obtain ⟨commits, refs, pending⟩ := ih (store.deleteObject hash)
    obtain ⟨commits', refs', pending'⟩ := store.deleteObject_same hash
    exact ⟨commits.trans commits', refs.trans refs', pending.trans pending'⟩

end Store

/-- What is seen covers the store that the snapshot is of. -/
def Covers (content : Text → Body) (seen : Observed) (snapshot : Snapshot) (store : Store) : Prop :=
  seen.Closed content ∧ seen.Sees store ∧ snapshot.roots = store.roots ∧
    store.readPending = .ok snapshot.pending

/-- What a batch finds under its lock covers the store. -/
theorem validate_covers {observed after : Observed} (certified : observed.Certified content store)
    (validated : validate content store observed = .ok (some (after, snapshot))) :
    Covers content after snapshot store := by
  obtain ⟨_, isPending, validated⟩ := bind_eq_ok.mp validated
  obtain ⟨_, isCovered, validated⟩ := bind_eq_ok.mp validated
  split at validated
  next => cases validated
  next isDelta =>
    obtain ⟨_, rfl, isDelta⟩ := bind_eq_some_iff.mp isDelta
    obtain ⟨_, isSeen, same⟩ := bind_eq_ok.mp validated
    cases same
    have grows := grows_observeBatch isSeen
    refine ⟨grows.closed certified.closed, ?_, rfl, isPending⟩
    exact coverage_sees certified rfl (Store.readPending_ok isPending).1 isCovered isDelta grows

/-- The objects a batch removes are not reachable. -/
theorem removable_safe (closed : observed.Closed content) (sees : observed.Sees store) :
    Deletion.Safe content ⟨store.deleteObjects (removable store cutoff candidates observed),
      removable store cutoff candidates observed⟩ := by
  obtain ⟨commits, refs, -⟩ := store.deleteObjects_same (removable store cutoff candidates observed)
  intro hash among
  have unseen : hash ∉ observed.live := by
    rw [removable, oldCandidates] at among
    have isFree := (mem_filter.mp (mem_filter.mp among).1).2
    intro isLive
    rw [ExtTreeSet.contains_iff_mem.mpr isLive] at isFree
    cases isFree
  refine ⟨fun reachable => ?_, fun tree byteLen entries reachable isTree named => ?_⟩
  · exact unseen (closed hash (sees hash (reachable.congr commits refs))).1
  · exact unseen ((closed tree (sees tree (reachable.congr commits refs))).2 byteLen entries isTree
      hash named)

/-- The certificate of a batch holds for the store it leaves. -/
theorem certified_complete (covers : Covers content observed snapshot store) :
    Observed.Certified content
      { observed with proof := .complete (store.deleteObjects removed).epochs snapshot }
      (store.deleteObjects removed) := by
  obtain ⟨closed, sees, roots, slot⟩ := covers
  obtain ⟨commits, refs, pending⟩ := store.deleteObjects_same removed
  have sees' : ∀ proof, Observed.Sees { observed with proof } (store.deleteObjects removed) :=
    fun proof tree reachable => sees tree (reachable.congr commits refs)
  refine ⟨closed, fun epoch isEpoch => ?_, fun proof isProof => ?_⟩
  · exact ⟨_, .refl, some.inj isEpoch, sees' _⟩
  · cases isProof
    refine ⟨_, _, _, .refl, .refl, .refl, rfl, ?_, ?_, sees' _⟩
    · rw [roots, Store.roots, Store.roots, Store.heads, Store.heads, commits, refs]
    · rw [← slot, Store.readPending, Store.readPending, pending, commits]

theorem deleteValidatedBatch_safe :
    Triple (Deletion.Safe content) (observed.Certified content)
      (deleteValidatedBatch content cutoff candidates attempts observed)
      fun result store => result.1.Certified content store := by
  induction attempts generalizing observed with
  | zero => exact .pure fun _ certified => certified
  | succ _ ih =>
    rw [deleteValidatedBatch]
    refine prepareValidation_certified.bind fun observed => ?_
    have waited : Triple (Deletion.Safe content) (observed.Certified content)
        (await Store.commit : Sweep PUnit) fun _ store => observed.Certified content store :=
      .await fun _ _ certified acts => certified.later (later_of_acts acts)
    refine waited.bind fun _ => ?_
    refine (locked_reads _).bind fun result => orFail_past.bind fun validated => ?_
    cases validated with
    | none =>
      dsimp only
      split
      next => exact .pure fun _ before => before.2.2
      next =>
        refine .assume (fun _ before => before.2.2.closed) fun closed => ?_
        have start : ∀ store, (result = .ok none ∧ validate content store observed = result ∧
            observed.Certified content store) → Past (observed.Certified content) store :=
          fun store before => ⟨store, before.2.2, .refl⟩
        exact .weaken start ((prepareFull_certified closed).bind fun _ => ih)
    | some found =>
      obtain ⟨seen, snapshot⟩ := found
      dsimp only
      have valid : ∀ store, (result = .ok (some (seen, snapshot)) ∧
          validate content store observed = result ∧ observed.Certified content store) →
          Covers content seen snapshot store := by
        rintro store ⟨isFound, isResult, certified⟩
        exact validate_covers certified (isResult.trans isFound)
      refine .weaken valid ((locked_reads _).bind fun removed => ?_)
      have written : Triple (Deletion.Safe content) (fun store =>
          removable store cutoff candidates seen = removed ∧ Covers content seen snapshot store)
          (write fun store => (store.deleteObjects removed,
            ⟨store.deleteObjects removed, removed⟩) : Sweep PUnit)
          fun _ store => Observed.Certified content
            { seen with proof := .complete store.epochs snapshot } store := by
        refine .write ?_
        rintro store ⟨rfl, covers⟩
        exact ⟨removable_safe covers.1 covers.2.1, certified_complete covers⟩
      refine written.bind fun _ => (locked_reads Store.epochs).bind fun _ => .pure ?_
      rintro _ ⟨rfl, certified⟩
      exact certified

theorem flushBatches_safe :
    Triple (Deletion.Safe content) (observed.Certified content)
      (flushBatches content cutoff fuel pending observed deleted)
      fun result store => ∀ rest, result.1 = some rest → rest.2.Certified content store := by
  induction fuel generalizing pending observed deleted with
  | zero => exact .pure fun _ certified _ isRest => some.inj isRest ▸ certified
  | succ _ ih =>
    rw [flushBatches]
    split
    next => exact .pure fun _ certified _ isRest => some.inj isRest ▸ certified
    next =>
      refine deleteValidatedBatch_safe.bind fun result => ?_
      obtain ⟨_, count⟩ := result
      cases count with
      | none => exact .pure fun _ _ => nofun
      | some => exact ih

theorem sweepPages_safe :
    Triple (Deletion.Safe content) (observed.Certified content)
      (sweepPages content cutoff fuel cursor pending observed deleted) fun _ _ => True := by
  induction fuel generalizing cursor pending observed deleted with
  | zero => exact .pure fun _ _ => trivial
  | succ _ ih =>
    rw [sweepPages]
    have paged : ∀ {α : Type} (read : Store → α), Triple (Deletion.Safe content)
        (observed.Certified content) (outside Store.commit read : Sweep α)
        fun _ store => observed.Certified content store :=
      fun _ => .outside fun _ _ certified acts => certified.later (later_of_acts acts)
    refine (paged _).bind fun page => ?_
    split
    next =>
      split
      next => exact .pure fun _ _ => trivial
      next => exact deleteValidatedBatch_safe.bind fun _ => .pure fun _ _ => trivial
    next last _ =>
      dsimp only
      split
      next => exact ih
      next =>
        refine (paged _).bind fun old => flushBatches_safe.bind fun result => ?_
        obtain ⟨rest, _⟩ := result
        cases rest with
        | none => exact .pure fun _ _ => trivial
        | some rest => exact .weaken (fun _ certified => certified rest rfl) ih

/-- **The object sweep never deletes a reachable object.**  Whatever the store is, whatever
transactions commit between the reads of the sweep and however long it runs, every object that a
batch removes is, in the store that the batch leaves, neither the tree of a reachable commit nor a
blob that such a tree names. -/
theorem sweep_safe (content : Text → Body) (cutoff : Int) (fuel : Nat) (store : Store)
    (schedule : List (List Transaction)) :
    ∀ deletion ∈ ((sweepBatches content cutoff fuel).exec ⟨store, schedule, []⟩).2.log,
      ∀ hash ∈ deletion.removed, ¬ deletion.store.ReachableTree hash ∧
        ∀ tree byteLen entries, deletion.store.ReachableTree tree →
          content tree = .tree byteLen (some entries) → hash ∉ entries := by
  have closed : Observed.init.Closed content := by
    intro tree isSeen
    exact absurd isSeen ExtTreeSet.not_mem_empty
  have safe : Triple (Deletion.Safe content) (Past fun _ => True)
      (sweepBatches content cutoff fuel) fun _ _ => True :=
    (prepareFull_certified closed).bind fun _ => sweepPages_safe
  exact (safe ⟨store, schedule, []⟩ nofun ⟨store, trivial, .refl⟩).1

/-- One commit with a tree of one blob, and two objects nothing names. -/
def sweptStore : Store :=
  { commits := ExtTreeMap.ofList ([(['a'], ⟨['t'], none, ['x'], 0⟩)] : List (Text × CommitRecord))
    refs := ExtTreeMap.ofList [(['t'], ['a'])]
    objects := ExtTreeMap.ofList
      ([(['b'], 0), (['o'], 0), (['p'], 0), (['x'], 0)] : List (Text × Int))
    legacy := 0
    unknown := 0
    pending := none }

def sweptContent (hash : Text) : Body :=
  if hash = ['x'] then .tree 1 (some [['b']])
  else if hash = ['y'] then .tree 1 (some [['b'], ['o']])
  else .blob

/-- A commit that names one of the two is published after the full observation. -/
def sweptSchedule : List (List Transaction) :=
  replicate 11 [] ++ [[[.insertObject ['y'] 5, .insertCommit ['c'] ⟨['t'], some ['a'], ['y'], 5⟩,
    .setRef ['t'] ['c']]]]

/-- Only the object that nothing names is removed. -/
theorem sweep_safe_swept :
    let log := ((sweepBatches sweptContent 10 2).exec ⟨sweptStore, sweptSchedule, []⟩).2.log
    log.map Deletion.removed = [[['p']]] ∧
      ∃ deletion ∈ log, ¬ deletion.store.ReachableTree ['p'] := by
  intro log
  have removed : log.map Deletion.removed = [[['p']]] := by decide +kernel
  obtain ⟨deletion, member, isRemoved⟩ : ∃ deletion ∈ log, deletion.removed = [['p']] :=
    mem_map.mp (by rw [removed]; exact mem_cons_self)
  refine ⟨removed, deletion, member, ?_⟩
  exact (sweep_safe sweptContent 10 2 sweptStore sweptSchedule deletion member ['p']
    (by rw [isRemoved]; exact mem_cons_self)).1

end NeigeCalm.Vcs
