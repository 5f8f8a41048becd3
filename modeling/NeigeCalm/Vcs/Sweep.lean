import NeigeCalm.Error
import NeigeCalm.Library.Interleaving
import NeigeCalm.Vcs.Store

/-!
# The object sweep

The collector observes the reachable trees without a lock, remembers which epochs that
observation is good for, and deletes old objects it has not seen in batches.  Under the lock of a
batch it relies on an unchanged epoch, on a walk over the commits that are new since the heads it
knows, or else reads all trees again.
-/

namespace NeigeCalm.Vcs

open Library Interleaving Std Store

/-- What an object's hash stands for: a tree with its decoded length and the blobs of its manifest
(nothing when it does not parse), or a blob. -/
inductive Body where
  | tree (byteLen : Nat) (entries : Option (List Text))
  | blob
deriving DecidableEq

structure TreeMeta where
  hash : Text
  byteLen : Nat
deriving DecidableEq

/-! ## Certificates -/

structure Epochs where
  legacy : Nat
  unknown : Nat
deriving DecidableEq

structure Snapshot where
  roots : ExtTreeSet Text
  pending : Option Pending

structure Certificate where
  unknown : Nat
  snapshot : Snapshot

structure Certificates where
  legacy : Option Nat
  frontier : Option Certificate

namespace Certificates

def covers (proof : Certificates) (epochs : Epochs) : Bool :=
  proof.legacy == some epochs.legacy ||
    proof.frontier.any fun certificate => certificate.unknown == epochs.unknown

def complete (epochs : Epochs) (snapshot : Snapshot) : Certificates :=
  { legacy := some epochs.legacy, frontier := some ⟨epochs.unknown, snapshot⟩ }

def bracket (before after : Epochs) (snapshot : Snapshot) : Certificates :=
  { legacy := if before.legacy = after.legacy then some before.legacy else none
    frontier := if before.unknown = after.unknown then some ⟨before.unknown, snapshot⟩ else none }

end Certificates

/-- The trees parsed so far, and all objects they show to be live. -/
structure Observed where
  trees : ExtTreeSet Text
  live : ExtTreeSet Text
  proof : Certificates

def Observed.init : Observed := { trees := ∅, live := ∅, proof := ⟨none, none⟩ }

def Observed.observe (observed : Observed) (hash : Text) (entries : List Text) : Observed :=
  { observed with
    live := (observed.live.insertMany entries).insert hash
    trees := observed.trees.insert hash }

/-! ## Reads -/

namespace Store

def epochs (store : Store) : Epochs := ⟨store.legacy, store.unknown⟩

/-- The heads that are stored commits. -/
def roots (store : Store) : ExtTreeSet Text :=
  .ofList (store.heads.filter store.commits.contains)

def readPending (store : Store) : Except CalmError (Option Pending) :=
  match store.pending with
  | none => .ok none
  | some slot =>
    if store.commits[slot.hash]?.any fun record => record.trackId == slot.track then
      .ok (some slot)
    else .error (.internal "track_vcs: invalid pending GC publication".toList)

variable (content : Text → Body)

def checkedTree (store : Store) (hash : Text) : Except CalmError TreeMeta :=
  match store.objects.contains hash, content hash with
  | true, .tree byteLen _ => .ok ⟨hash, byteLen⟩
  | _, _ =>
    .error (.internal ("track_vcs: reachable tree object ".toList ++ hash ++
      " is missing or not a tree".toList))

def reachableTrees (store : Store) : Except CalmError (List TreeMeta) :=
  store.reachableTreeHashes.mapM (store.checkedTree content)

end Store

variable (content : Text → Body)

/-- One fetched tree is parsed. -/
def Observed.parse (observed : Observed) (tree : TreeMeta) : Except CalmError Observed :=
  match content tree.hash with
  | .tree _ (some entries) => .ok (observed.observe tree.hash entries)
  | .tree _ none =>
    .error (.internal ("track_vcs: parse tree manifest object ".toList ++ tree.hash))
  | .blob =>
    .error (.internal ("track_vcs: reachable tree object ".toList ++ tree.hash ++
      " is not a tree".toList))

def observeBatch (store : Store) (trees : List TreeMeta) (observed : Observed) :
    Except CalmError Observed :=
  match trees.find? fun tree => !store.objects.contains tree.hash with
  | some tree =>
    .error (.internal ("track_vcs: reachable tree object ".toList ++ tree.hash ++
      " disappeared during observation".toList))
  | none => trees.foldlM (Observed.parse content) observed

/-! ## The frontier -/

def commitReadBatch : Nat := 32

def commitNodeLimit : Nat := 256

def commitRoundLimit : Nat := 32

/-- The commits to read next and the trees found. -/
structure Frontier where
  todo : ExtTreeSet Text
  trees : ExtTreeMap Text TreeMeta

/-- One commit row of a round. -/
def Frontier.row (store : Store) (visited known : ExtTreeSet Text) (frontier : Frontier)
    (record : CommitRecord) : Except CalmError Frontier := do
  let tree ← store.checkedTree content record.treeHash
  return {
    trees := frontier.trees.insert tree.hash tree
    todo := match record.parentHash with
      | none => frontier.todo
      | some parent =>
        if visited.contains parent || known.contains parent then frontier.todo
        else frontier.todo.insert parent }

/-- Rounds of reads from new heads down to the heads that are known. -/
def reconcileRounds (store : Store) (known : ExtTreeSet Text) :
    Nat → ExtTreeSet Text → Frontier → Except CalmError (Option (List TreeMeta))
  | rounds, visited, frontier =>
    if frontier.todo.isEmpty then .ok (some (frontier.trees.toList.map Prod.snd))
    else
      match rounds with
      | 0 => .ok none
      | rounds + 1 =>
        if visited.size = commitNodeLimit then .ok none
        else do
          let count := min commitReadBatch (commitNodeLimit - visited.size)
          let batch := frontier.todo.toList.take count
          let visited := visited.insertMany batch
          let next ← (batch.filterMap fun hash => store.commits[hash]?).foldlM
            (Frontier.row content store visited known)
            { frontier with todo := .ofList (frontier.todo.toList.drop count) }
          reconcileRounds store known rounds visited next

/-- The trees of the commits that are new since a certificate; nothing when the pending commit
changed or there is too much to read. -/
def reconcile (store : Store) (proof : Certificate) (current : Snapshot) :
    Except CalmError (Option (List TreeMeta)) :=
  if proof.snapshot.pending ≠ current.pending then .ok none
  else
    reconcileRounds content store proof.snapshot.roots commitRoundLimit ∅
      { todo := .ofList (current.roots.toList.filter fun root =>
          !proof.snapshot.roots.contains root)
        trees := ∅ }

/-! ## The program -/

/-- A committed batch: the store it left and the objects it removed. -/
structure Deletion where
  store : Store
  removed : List Text

abbrev Sweep (α : Type) := Program CalmError Store Transaction Deletion α

/-- The two epochs, each by a read of its own. -/
def readEpochs : Sweep Epochs := do
  let legacy ← outside commit legacy
  let unknown ← outside commit unknown
  return ⟨legacy, unknown⟩

def treeReadBatch : Nat := 32

/-- `observe_external`: the payloads in chunks. -/
def observeExternal : Nat → List TreeMeta → Observed → Sweep Observed
  | 0, _, observed => return observed
  | fuel + 1, trees, observed => do
    let observed ← orFail (← outside commit fun store =>
      observeBatch content store (trees.take treeReadBatch) observed)
    observeExternal fuel (trees.drop treeReadBatch) observed

def prepareFull (observed : Observed) : Sweep Observed := do
  let before ← readEpochs
  let roots ← outside commit roots
  let pending ← orFail (← outside commit readPending)
  let trees ← orFail (← outside commit (reachableTrees content))
  let observed ← observeExternal content trees.length trees observed
  let after ← readEpochs
  return { observed with proof := .bracket before after ⟨roots, pending⟩ }

def prepareValidation (observed : Observed) : Sweep Observed := do
  let current ← readEpochs
  if observed.proof.covers current then return observed else prepareFull content observed

def inlineTreeLimit : Nat := 32

def inlineByteLimit : Nat := 1024 * 1024

/-- `u64::saturating_add`. -/
def saturatingAdd (first second : Nat) : Nat := min (first + second) (2 ^ 64 - 1)

/-- The trees to look at under the lock, and whether those parsed before still count; nothing when
the work has to be done outside. -/
def coverage (store : Store) (snapshot : Snapshot) (observed : Observed) :
    Except CalmError (Option (List TreeMeta × Bool)) :=
  if observed.proof.legacy = some store.legacy then .ok (some ([], true))
  else
    match observed.proof.frontier.filter fun proof => proof.unknown == store.unknown with
    | some proof => do
      return (← reconcile content store proof snapshot).map fun trees => (trees, true)
    | none => do
      return some (← store.reachableTrees content, false)

/-- The delta of a batch, unless it is too large to read under the lock. -/
def inlineDelta (observed : Observed) (current : List TreeMeta × Bool) : Option (List TreeMeta) :=
  let delta := current.1.filter fun tree => !current.2 || !observed.trees.contains tree.hash
  let bytes := delta.foldl (fun sum tree => saturatingAdd sum tree.byteLen) 0
  if inlineTreeLimit < delta.length ∨ inlineByteLimit < bytes then none else some delta

def oldCandidates (store : Store) (cutoff : Int) (hashes : List Text) : List Text :=
  hashes.filter fun hash => store.objects[hash]?.any fun createdAt => decide (createdAt < cutoff)

/-- The candidates that the delete removes. -/
def removable (store : Store) (cutoff : Int) (candidates : List Text) (observed : Observed) :
    List Text :=
  oldCandidates store cutoff (candidates.filter fun hash => !observed.live.contains hash)

def Store.deleteObjects (store : Store) (hashes : List Text) : Store :=
  hashes.foldl deleteObject store

/-- What a batch finds under its lock: a new observation that covers the store, or nothing. -/
def validate (store : Store) (observed : Observed) :
    Except CalmError (Option (Observed × Snapshot)) := do
  let snapshot : Snapshot := ⟨store.roots, ← store.readPending⟩
  match (← coverage content store snapshot observed).bind (inlineDelta observed) with
  | none => return none
  | some delta => return some (← observeBatch content store delta observed, snapshot)

def deleteValidatedBatch (cutoff : Int) (candidates : List Text) :
    Nat → Observed → Sweep (Observed × Option Nat)
  | 0, observed => return (observed, none)
  | attempts + 1, observed => do
    let observed ← prepareValidation content observed
    await commit
    match ← orFail (← locked fun store => validate content store observed) with
    | some (observed, snapshot) =>
      let removed ← locked fun store => removable store cutoff candidates observed
      write fun store => (store.deleteObjects removed, ⟨store.deleteObjects removed, removed⟩)
      let epochs ← locked epochs
      return ({ observed with proof := .complete epochs snapshot }, some removed.length)
    | none =>
      if attempts = 0 then return (observed, none)
      else do
        let observed ← prepareFull content observed
        deleteValidatedBatch cutoff candidates attempts observed

def validationAttempts : Nat := 3

def deleteBatchSize : Nat := 256

def objectScanPageSize : Nat := 256

/-- Whole batches of the candidates found so far; nothing left over means to stop. -/
def flushBatches (cutoff : Int) :
    Nat → List Text → Observed → Nat → Sweep (Option (List Text × Observed) × Nat)
  | 0, pending, observed, deleted => return (some (pending, observed), deleted)
  | fuel + 1, pending, observed, deleted =>
    if pending.length < deleteBatchSize then return (some (pending, observed), deleted)
    else do
      match ← deleteValidatedBatch content cutoff (pending.take deleteBatchSize) validationAttempts
          observed with
      | (_, none) => return (none, deleted)
      | (observed, some count) =>
        flushBatches cutoff fuel (pending.drop deleteBatchSize) observed (deleted + count)

/-- The pages of objects by hash; the fuel bounds how many are read. -/
def sweepPages (cutoff : Int) : Nat → Text → List Text → Observed → Nat → Sweep Nat
  | 0, _, _, _, deleted => return deleted
  | fuel + 1, cursor, pending, observed, deleted => do
    let page ← outside commit fun store =>
      (store.objects.keys.filter fun hash => decide (cursor < hash)).take objectScanPageSize
    match page.getLast? with
    | none =>
      if pending.isEmpty then return deleted
      else do
        let (_, count) ← deleteValidatedBatch content cutoff pending validationAttempts observed
        return deleted + count.getD 0
    | some last =>
      let unmarked := page.filter fun hash => !observed.live.contains hash
      if unmarked.isEmpty then sweepPages cutoff fuel last pending observed deleted
      else do
        let old ← outside commit fun store => oldCandidates store cutoff unmarked
        match ← flushBatches content cutoff (pending ++ old).length (pending ++ old) observed
            deleted with
        | (none, deleted) => return deleted
        | (some (pending, observed), deleted) =>
          sweepPages cutoff fuel last pending observed deleted

/-- `sweep_batches`, for as many pages as the fuel allows. -/
def sweepBatches (cutoff : Int) (fuel : Nat) : Sweep Nat := do
  let observed ← prepareFull content .init
  sweepPages content cutoff fuel [] [] observed 0

end NeigeCalm.Vcs
