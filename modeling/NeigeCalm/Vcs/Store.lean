import NeigeCalm.Library.Ancestry
import NeigeCalm.Library.Lines
import NeigeCalm.Library.OrderedMap
import Mathlib.Data.List.Dedup

/-!
# The version store of a track

Commits with their parent and tree, one ref a track, objects by hash, and what the triggers on
these tables keep for the collector: two epochs and the slot of a commit that is inserted but not
yet published.  Each statement is given with its triggers.
-/

namespace NeigeCalm.Vcs

open Library Option Std

structure CommitRecord where
  trackId : Text
  parentHash : Option Text
  treeHash : Text
  createdAt : Int
deriving DecidableEq

/-- A commit inserted on top of a head, before the ref of its track moves to it. -/
structure Pending where
  hash : Text
  track : Text
deriving DecidableEq

structure Store where
  commits : ExtTreeMap Text CommitRecord
  refs : ExtTreeMap Text Text
  /-- The time each object was stored. -/
  objects : ExtTreeMap Text Int
  /-- `track_vcs_gc_state.revision`. -/
  legacy : Nat
  /-- `track_vcs_gc_frontier_state.revision`. -/
  unknown : Nat
  pending : Option Pending

namespace Store

/-! ## Reachability -/

def parentOf (store : Store) (hash : Text) : Option (Option Text) :=
  store.commits[hash]?.map CommitRecord.parentHash

def IsHead (store : Store) (hash : Text) : Prop := ∃ track : Text, store.refs[track]? = some hash

def heads (store : Store) : List Text := store.refs.toList.map Prod.snd

/-- The commit is reachable by parents from the head of a ref. -/
def Reachable (store : Store) : Text → Prop := Ancestry.Reach store.parentOf store.IsHead

def ReachableTree (store : Store) (tree : Text) : Prop :=
  ∃ hash record, store.Reachable hash ∧ store.commits[hash]? = some record ∧
    record.treeHash = tree

/-- The hashes of `REACHABLE_TREES`. -/
def reachableTreeHashes (store : Store) : List Text :=
  ((Ancestry.collect store.parentOf store.commits.keys.length store.commits.keys
    store.heads).filterMap fun hash =>
      store.commits[hash]?.map CommitRecord.treeHash).dedup

/-! ## Triggers -/

def bumpLegacy (store : Store) : Store := { store with legacy := store.legacy + 1 }

def bumpUnknown (store : Store) : Store := { store with unknown := store.unknown + 1 }

/-- The pending commit is the head of its track. -/
def published (store : Store) (slot : Pending) : Bool :=
  store.refs[slot.track]? == some slot.hash &&
    store.commits[slot.hash]?.any fun record => record.trackId == slot.track

/-- A delete from the pending slot; an unpublished commit counts as unknown. -/
def clearPending (store : Store) (selects : Pending → Bool) : Store :=
  match store.pending with
  | none => store
  | some slot =>
    if selects slot then
      { store with
        pending := none
        unknown := if store.published slot then store.unknown else store.unknown + 1 }
    else store

/-- `track_vcs_gc_inert_head_extension`: the child has the tree of the head under it. -/
def inertHeadExtension (store : Store) (child track : Text) : Bool :=
  match store.refs[track]? with
  | none => false
  | some head =>
    match store.commits[child]?, store.commits[head]? with
    | some record, some parent =>
      record.trackId == track && record.parentHash == some head && parent.trackId == track &&
        child != head && record.treeHash == parent.treeHash
    | _, _ => false

/-- The commit is new and extends the head of its track. -/
def extendsHead (store : Store) (hash : Text) (record : CommitRecord) : Bool :=
  !store.commits.contains hash &&
    match store.refs[record.trackId]? with
    | none => false
    | some head =>
      record.parentHash == some head && head != hash &&
        store.commits[head]?.any fun parent => parent.trackId == record.trackId

/-- The ref moves to the pending child of its head. -/
def publishes (store : Store) (track old head : Text) : Bool :=
  match store.pending with
  | none => false
  | some slot =>
    slot.hash == head && slot.track == track && head != old &&
      (store.commits[head]?.any fun record =>
        record.trackId == track && record.parentHash == some old) &&
      store.commits[old]?.any fun parent => parent.trackId == track

/-! ## Statements -/

def insertObject (store : Store) (hash : Text) (createdAt : Int) : Store :=
  if store.objects.contains hash then store
  else { store with objects := store.objects.insert hash createdAt }.bumpLegacy

def deleteObject (store : Store) (hash : Text) : Store :=
  if store.objects.contains hash then
    { store.bumpUnknown with objects := store.objects.erase hash }.bumpLegacy
  else store

/-- `frontier_commits_insert`, before the row is there. -/
def beforeInsertCommit (store : Store) (hash : Text) (record : CommitRecord) : Store :=
  if store.extendsHead hash record then
    { store.clearPending fun _ => true with pending := some ⟨hash, record.trackId⟩ }
  else store.bumpUnknown.clearPending fun slot => slot.hash == hash

/-- `INSERT OR IGNORE`. -/
def insertCommit (store : Store) (hash : Text) (record : CommitRecord) : Store :=
  let prepared := store.beforeInsertCommit hash record
  if store.commits.contains hash then prepared
  else
    let inserted := { prepared with commits := prepared.commits.insert hash record }
    if inserted.inertHeadExtension hash record.trackId then inserted else inserted.bumpLegacy

/-- A ref that is there moves, before the slot is cleared. -/
def moveRef (store : Store) (track old head : Text) : Store :=
  { store with
    refs := store.refs.insert track head
    legacy := if head == old || store.inertHeadExtension head track then store.legacy
      else store.legacy + 1
    unknown := if head == old || store.publishes track old head then store.unknown
      else store.unknown + 1 }

/-- The ref of a track is created or moved. -/
def setRef (store : Store) (track head : Text) : Store :=
  match store.refs[track]? with
  | none => { store with refs := store.refs.insert track head }.bumpLegacy.bumpUnknown
  | some old =>
    (store.moveRef track old head).clearPending fun slot => slot.hash == head && slot.track == track

def deleteRef (store : Store) (track : Text) : Store :=
  if store.refs.contains track then
    { store.bumpUnknown with refs := store.refs.erase track }.bumpLegacy
  else store

def deleteCommit (store : Store) (hash : Text) : Store :=
  if store.commits.contains hash then
    let prepared := store.bumpUnknown.clearPending fun slot => slot.hash == hash
    { prepared with commits := prepared.commits.erase hash }.bumpLegacy
  else store

def deleteCommits (store : Store) (hashes : List Text) : Store :=
  hashes.foldl deleteCommit store

end Store

/-- What the writers of the store do. -/
inductive Statement where
  | insertObject (hash : Text) (createdAt : Int)
  | insertCommit (hash : Text) (record : CommitRecord)
  | setRef (track head : Text)
  | deleteCommits (hashes : List Text)
  | deleteRef (track : Text)

def Store.exec (store : Store) : Statement → Store
  | .insertObject hash createdAt => store.insertObject hash createdAt
  | .insertCommit hash record => store.insertCommit hash record
  | .setRef track head => store.setRef track head
  | .deleteCommits hashes => store.deleteCommits hashes
  | .deleteRef track => store.deleteRef track

/-- The statements of one committed transaction, in order. -/
abbrev Transaction := List Statement

def Store.commit (store : Store) (transaction : Transaction) : Store :=
  transaction.foldl Store.exec store

namespace Store

/-! ## Reading the store -/

theorem parentOf_eq_some {store : Store} {hash : Text} :
    store.parentOf hash = some parent ↔
      ∃ record, store.commits[hash]? = some record ∧ record.parentHash = parent :=
  map_eq_some_iff

theorem parentOf_isSome {store : Store} {hash : Text} :
    (store.parentOf hash).isSome = true ↔ ∃ record, store.commits[hash]? = some record := by
  rw [parentOf, isSome_map]
  exact isSome_iff_exists

theorem mem_heads {store : Store} {hash : Text} : hash ∈ store.heads ↔ store.IsHead hash := by
  rw [heads, List.mem_map]
  constructor
  · rintro ⟨⟨track, _⟩, among, rfl⟩
    exact ⟨track, ExtTreeMap.mem_toList_iff_getElem?_eq_some.mp among⟩
  · rintro ⟨track, isHead⟩
    exact ⟨(track, hash), ExtTreeMap.mem_toList_iff_getElem?_eq_some.mpr isHead, rfl⟩

/-- The walk of the collector sees every reachable tree. -/
theorem ReachableTree.mem_hashes {store : Store} {tree : Text}
    (reachable : store.ReachableTree tree) :
    tree ∈ store.reachableTreeHashes := by
  obtain ⟨hash, _, reach, isRecord, isTree⟩ := reachable
  have roots : Ancestry.Reach store.parentOf (· ∈ store.heads) hash :=
    reach.mono (fun same => same) fun isHead stored => .root (mem_heads.mpr isHead) stored
  have all : ∀ known, (store.parentOf known).isSome = true → known ∈ store.commits.keys := by
    intro known stored
    obtain ⟨found, isFound⟩ := parentOf_isSome.mp stored
    exact ExtTreeMap.mem_keys.mpr (ExtTreeMap.mem_iff_isSome_getElem?.mpr
      (isSome_iff_exists.mpr ⟨found, isFound⟩))
  have walked := roots.mem_collect all
  rw [reachableTreeHashes, List.mem_dedup, List.mem_filterMap]
  exact ⟨hash, walked, by rw [isRecord, map_some, isTree]⟩

/-! ## Deletes -/

section ClearPending

variable (store : Store) (selects : Pending → Bool)

theorem clearPending_cases : store.clearPending selects = store ∨
    ∃ slot, store.pending = some slot ∧ selects slot = true ∧
      store.clearPending selects = { store with
        pending := none
        unknown := if store.published slot then store.unknown else store.unknown + 1 } := by
  rw [clearPending]
  split
  next => exact .inl rfl
  next slot isSlot =>
    split
    next selected => exact .inr ⟨slot, isSlot, selected, rfl⟩
    next => exact .inl rfl

@[simp] theorem clearPending_commits : (store.clearPending selects).commits = store.commits := by
  rcases store.clearPending_cases selects with same | ⟨_, _, _, same⟩ <;> rw [same]

@[simp] theorem clearPending_refs : (store.clearPending selects).refs = store.refs := by
  rcases store.clearPending_cases selects with same | ⟨_, _, _, same⟩ <;> rw [same]

@[simp] theorem clearPending_legacy : (store.clearPending selects).legacy = store.legacy := by
  rcases store.clearPending_cases selects with same | ⟨_, _, _, same⟩ <;> rw [same]

end ClearPending

theorem deleteCommit_refs (store : Store) (hash : Text) :
    (store.deleteCommit hash).refs = store.refs := by
  rw [deleteCommit]
  split
  next => exact clearPending_refs store.bumpUnknown _
  next => rfl

theorem deleteCommit_get (store : Store) (hash other : Text) :
    (store.deleteCommit hash).commits[other]? =
      if other = hash then none else store.commits[other]? := by
  rw [deleteCommit]
  split
  next =>
    dsimp only [bumpLegacy]
    rw [clearPending_commits, OrderedMap.get_erase]
    rfl
  next missing =>
    split
    next same =>
      rw [same]
      exact ExtTreeMap.getElem?_eq_none fun known =>
        missing (ExtTreeMap.contains_iff_mem.mpr known)
    next => rfl

theorem deleteCommits_refs (store : Store) (hashes : List Text) :
    (store.deleteCommits hashes).refs = store.refs := by
  induction hashes generalizing store with
  | nil => rfl
  | cons first _ ih => exact (ih (store.deleteCommit first)).trans (deleteCommit_refs store first)

theorem deleteCommits_get (store : Store) (hashes : List Text) (other : Text) :
    (store.deleteCommits hashes).commits[other]? =
      if other ∈ hashes then none else store.commits[other]? := by
  induction hashes generalizing store with
  | nil => simp [deleteCommits]
  | cons first rest ih =>
    have step := ih (store.deleteCommit first)
    rw [deleteCommit_get] at step
    refine step.trans ?_
    by_cases later : other ∈ rest
    · rw [if_pos later, if_pos (List.mem_cons_of_mem _ later)]
    · simp only [later, List.mem_cons, or_false, if_false]

end Store

end NeigeCalm.Vcs
