import NeigeCalm.Library.Breadth
import NeigeCalm.Report.Markers
import NeigeCalm.Report.Tasks

/-!
# The frozen context of a task

When a task is dispatched, the blocks its declaration refers to are frozen: the closure of the
references from the declaration's block, breadth first, up to `maxRefDepth` links and
`maxRefNodes` blocks.  The search of a report whose references all resolve is
`Breadth.explore` (`closeFrom_eq`).

An untruncated closure holds everything the task can see (`closure_complete`).  The converse
fails: a link of a block at the depth limit marks the closure truncated wherever it leads
(`truncated_misses_iff`).
-/

namespace NeigeCalm.Context

open Library Library.Breadth Report List Std

variable {N : Type}

def maxRefDepth : Nat := 3

def maxRefNodes : Nat := 64

inductive ResolveError where
  | storageUnavailable (message : Text)
  | malformedStoredReport (trackId : Text)
  | rootAbsent
  | referencedTrackAbsent (trackId : Text)
  | referencedBlockAbsent (ref : Text)
  | reportAbsent (trackId : Text)
  | crossArea (ref : Text)
  | invalidReference (raw : Text)

/-- A block of a track. -/
abbrev Ref := Text × Text

structure TaskContextRef where
  trackId : Text
  blockId : Text
  rev : Nat
  hash : Text
  isRoot : Bool

def TaskContextRef.ref (frozen : TaskContextRef) : Ref := (frozen.trackId, frozen.blockId)

structure FrozenClosure where
  refs : List TaskContextRef
  docRevs : ExtTreeMap Text Nat
  closureTruncated : Bool

/-- A track's area and its stored report. -/
structure Snapshot (N : Type) where
  area : Text
  docRev : Nat
  values : List (Json N)

/-- What the resolver reads, with the readers of stored blocks and of links in markdown. -/
structure Repo (N : Type) where
  trackArea : Text → Except Text (Option Text)
  systemArea : Except Text (Option Text)
  reportSnapshot : Text → Except ResolveError (Snapshot N)
  fromValue : Json N → Option (ReportBlock N)
  fromValue_id : ∀ {value block}, fromValue value = some block →
    strAt value "id".toList = some block.id
  scanLinks : Text → List (Text × Option Text)
  hash : Bool → ReportBlock N → Text
  print : Json N → Text

def refText (ref : Ref) : Text := ref.1 ++ '#' :: ref.2

def Repo.loadBlock (repo : Repo N) (ref : Ref) (isRoot : Bool) :
    Except ResolveError (Snapshot N × ReportBlock N) := do
  let snapshot ← repo.reportSnapshot ref.1
  match snapshot.values.find? (strAt · "id".toList == some ref.2) with
  | none => .error (if isRoot then .rootAbsent else .referencedBlockAbsent (refText ref))
  | some value =>
    match repo.fromValue value with
    | none => .error (.malformedStoredReport ref.1)
    | some block => .ok (snapshot, block)

def contextRef (repo : Repo N) (trackId : Text) (block : ReportBlock N) (isRoot : Bool) :
    TaskContextRef :=
  ⟨trackId, block.id, block.rev.toNat, repo.hash isRoot block, isRoot⟩

def parseDestination (destination : Text) : Option (Text × Option Text) := do
  let path ← Text.stripStart "neige://wave/".toList destination
  let (trackId, fragment) := match Text.splitOnce '#' path with
    | some (trackId, fragment) => (trackId, some fragment)
    | none => (path, none)
  if trackId = [] ∨ '/' ∈ trackId then none
  else some (trackId, fragment.filter isMarkerId)

def scannableTextFields (kind : Text) (payload : Json N) : List Text :=
  if kind = kindProse then (strAt payload "markdown".toList).toList
  else if kind = kindTask then
    ["goal".toList, "command".toList, "acceptance".toList].filterMap (strAt payload)
  else []

def Repo.explicitLink (repo : Repo N) : Json N → Except ResolveError Ref
  | .string raw =>
    match parseDestination raw with
    | some (trackId, some blockId) => .ok (trackId, blockId)
    | _ => .error (.invalidReference raw)
  | value => .error (.invalidReference (repo.print value))

def Repo.blockLinks (repo : Repo N) (block : ReportBlock N) : Except ResolveError (List Ref) := do
  let explicit ← match block.payload.get "refs".toList with
    | some (.array values) => values.mapM repo.explicitLink
    | _ => .ok []
  return explicit ++ (scannableTextFields block.kind block.payload).flatMap fun text =>
    (repo.scanLinks text).filterMap fun (trackId, blockId) => blockId.map (trackId, ·)

/-- The loop over the queue, with room for `room` more blocks.  A reference that was visited is
passed over. -/
def Repo.closeFrom (repo : Repo N) (allowed : Text → Bool) :
    Nat → List (Ref × Nat) → List Ref → FrozenClosure → Except ResolveError FrozenClosure
  | room, queue, visited, closure =>
    match pending visited queue, room with
    | [], _ => .ok closure
    | _ :: _, 0 => .ok { closure with closureTruncated := true }
    | (ref, depth) :: queue, room + 1 => do
      let (snapshot, block) ← repo.loadBlock ref (depth == 0)
      if allowed snapshot.area then
        let links ← repo.blockLinks block
        repo.closeFrom allowed room
          (queue ++ if depth = maxRefDepth then [] else links.map (·, depth + 1)) (visited ++ [ref])
          ⟨closure.refs ++ [contextRef repo ref.1 block (depth == 0)],
            closure.docRevs.insertIfNew ref.1 snapshot.docRev,
            closure.closureTruncated || depth = maxRefDepth && !links.isEmpty⟩
      else .error (.crossArea (refText ref))

def Repo.resolveFromRootWithRevs (repo : Repo N) (taskTrackId rootBlockId : Text)
    (docRevs : ExtTreeMap Text Nat) : Except ResolveError FrozenClosure := do
  match ← (repo.trackArea taskTrackId).mapError .storageUnavailable with
  | none => .error (.referencedTrackAbsent taskTrackId)
  | some area =>
    let systemArea ← repo.systemArea.mapError .storageUnavailable
    repo.closeFrom (fun other => other = area || systemArea = some other) maxRefNodes
      [((taskTrackId, rootBlockId), 0)] [] ⟨[], docRevs, false⟩

def Repo.resolveFromRoot (repo : Repo N) (taskTrackId rootBlockId : Text) :
    Except ResolveError FrozenClosure :=
  repo.resolveFromRootWithRevs taskTrackId rootBlockId ∅

/-! ## A graph of references that all resolve -/

/-- Every reference the root leads to is a block in an allowed area, with these links. -/
def Repo.Resolves (repo : Repo N) (root : Ref) (links : Ref → List Ref)
    (blockAt : Ref → ReportBlock N) : Prop :=
  ∃ area systemArea, repo.trackArea root.1 = .ok (some area) ∧ repo.systemArea = .ok systemArea ∧
    ∀ ref, Reachable links root ref →
      ∃ snapshot, (∀ isRoot, repo.loadBlock ref isRoot = .ok (snapshot, blockAt ref)) ∧
        (snapshot.area = area ∨ systemArea = some snapshot.area) ∧
        repo.blockLinks (blockAt ref) = .ok (links ref)

variable {repo : Repo N}

/-- The id of a loaded block is the one asked for. -/
theorem loadBlock_id {ref : Ref} {isRoot : Bool}
    (loaded : repo.loadBlock ref isRoot = .ok (snapshot, block)) : block.id = ref.2 := by
  obtain ⟨_, -, loaded⟩ := Fallible.bind_eq_ok.mp loaded
  split at loaded
  · cases loaded
  next value found =>
    split at loaded
    · cases loaded
    next read =>
      cases loaded
      have asked : strAt value "id".toList = some ref.2 := by simpa using find?_some found
      exact Option.some.inj ((repo.fromValue_id read).symm.trans asked)

/-- What is frozen of an entry of the search. -/
def frozenAt (repo : Repo N) (blockAt : Ref → ReportBlock N) (entry : Ref × Nat) : TaskContextRef :=
  contextRef repo entry.1.1 (blockAt entry.1) (entry.2 == 0)

/-- The loop is the breadth-first search of the links. -/
theorem closeFrom_eq (allowed : Text → Bool) (loads : ∀ ref, Reachable links root ref →
      ∃ snapshot, (∀ isRoot, repo.loadBlock ref isRoot = .ok (snapshot, blockAt ref)) ∧
        allowed snapshot.area = true ∧ repo.blockLinks (blockAt ref) = .ok (links ref)) (room : Nat)
    (found : List (Ref × Nat)) (cut : Bool) (docRevs : ExtTreeMap Text Nat)
    (queued : ∀ entry ∈ queue, Reachable links root entry.1) :
    ∃ docRevs', repo.closeFrom allowed room queue (found.map Prod.fst)
        ⟨found.map (frozenAt repo blockAt), docRevs, cut⟩ =
      .ok ⟨(explore links maxRefDepth room found queue cut).1.map (frozenAt repo blockAt), docRevs',
        (explore links maxRefDepth room found queue cut).2⟩ := by
  have left : ∀ entry ∈ pending (found.map Prod.fst) queue, Reachable links root entry.1 :=
    fun entry inside => queued entry ((dropWhile_sublist _).subset inside)
  induction room generalizing found queue cut docRevs with
  | zero =>
    unfold Repo.closeFrom explore
    rcases pending (found.map Prod.fst) queue with _ | ⟨entry, rest⟩ <;> exact ⟨_, rfl⟩
  | succ _ ih =>
    unfold Repo.closeFrom explore
    generalize pending (found.map Prod.fst) queue = rest at left ⊢
    rcases rest with _ | ⟨⟨ref, depth⟩, rest⟩
    · exact ⟨_, rfl⟩
    have reachable := left _ mem_cons_self
    obtain ⟨snapshot, loaded, inArea, isLinks⟩ := loads ref reachable
    have queued' : ∀ entry ∈ rest ++ follow links maxRefDepth (ref, depth),
        Reachable links root entry.1 := by
      intro entry inside
      rcases mem_append.mp inside with before | new
      · exact left _ (mem_cons_of_mem _ before)
      · obtain ⟨n, walk⟩ := reachable
        exact ⟨_, walk.link (mem_follow.mp new).2.1⟩
    have followed := ih (found ++ [(ref, depth)]) (cut || cuts links maxRefDepth (ref, depth))
      (docRevs.insertIfNew ref.1 snapshot.docRev) queued'
      fun entry inside => queued' entry ((dropWhile_sublist _).subset inside)
    simpa [loaded, inArea, isLinks, frozenAt, follow, cuts, bind, Except.bind] using followed

theorem resolves_finds (resolves : repo.Resolves root links blockAt)
    (docRevs : ExtTreeMap Text Nat) :
    ∃ found docRevs' cut,
      repo.resolveFromRootWithRevs root.1 root.2 docRevs =
        .ok ⟨found.map (frozenAt repo blockAt), docRevs', cut⟩ ∧
      Finds links maxRefDepth root maxRefNodes found cut ∧
      ∀ entry ∈ found, (frozenAt repo blockAt entry).ref = entry.1 := by
  obtain ⟨area, systemArea, isArea, isSystem, loads⟩ := resolves
  have start : ∀ entry ∈ [(root, 0)], Reachable links root entry.1 := fun entry isRoot =>
    mem_singleton.mp isRoot ▸ ⟨0, .here⟩
  obtain ⟨docRevs', done⟩ := closeFrom_eq (fun other => other = area || systemArea = some other)
    (by simpa using loads) maxRefNodes [] false docRevs start
  have finds := explore_finds links maxRefDepth root (show 0 < maxRefNodes by decide)
  refine ⟨_, docRevs', _, ?_, finds, fun entry isFound => ?_⟩
  · rw [← done]
    simp [Repo.resolveFromRootWithRevs, isArea, isSystem, Except.mapError, Except.bind, bind]
  · obtain ⟨_, loaded, -⟩ := loads entry.1 ⟨_, (finds.walked entry isFound).1⟩
    exact Prod.ext rfl (loadBlock_id (loaded true))

theorem map_ref_frozenAt {found : List (Ref × Nat)}
    (isRef : ∀ entry ∈ found, (frozenAt repo blockAt entry).ref = entry.1) :
    (found.map (frozenAt repo blockAt)).map TaskContextRef.ref = found.map Prod.fst := by
  rw [map_map]
  exact map_congr_left isRef

/-- What a frozen closure of the links says. -/
structure Frozen (repo : Repo N) (root : Ref) (links : Ref → List Ref)
    (blockAt : Ref → ReportBlock N) (closure : FrozenClosure) : Prop where
  few : closure.refs.length ≤ maxRefNodes
  distinct : (closure.refs.map TaskContextRef.ref).Nodup
  first : (closure.refs.map TaskContextRef.ref).head? = some root
  isRoot : ∀ frozen ∈ closure.refs, frozen.isRoot = true ↔ frozen.ref = root
  near : ∀ frozen ∈ closure.refs, ∃ n ≤ maxRefDepth, Walk links root n frozen.ref
  ordered : closure.refs.Pairwise fun a b => Nearer links root a.ref b.ref
  recorded : ∀ frozen ∈ closure.refs,
    frozen = contextRef repo frozen.trackId (blockAt frozen.ref) frozen.isRoot
  complete : closure.closureTruncated = false →
    ∀ ref, ref ∈ closure.refs.map TaskContextRef.ref ↔ Reachable links root ref

/-- **The frozen closure is complete unless it says otherwise.** -/
theorem closure_complete (resolves : repo.Resolves root links blockAt)
    (docRevs : ExtTreeMap Text Nat) :
    ∃ closure, repo.resolveFromRootWithRevs root.1 root.2 docRevs = .ok closure ∧
      Frozen repo root links blockAt closure := by
  obtain ⟨found, _, _, resolved, finds, isRef⟩ := resolves_finds resolves docRevs
  have refs := map_ref_frozenAt isRef
  have each : ∀ {P : TaskContextRef → Prop}, (∀ entry ∈ found, P (frozenAt repo blockAt entry)) →
      ∀ frozen ∈ found.map (frozenAt repo blockAt), P frozen := forall_mem_map.mpr
  refine ⟨_, resolved, by simpa using finds.bounded, by rw [refs]; exact finds.distinct, ?_, ?_, ?_,
    ?_, ?_, ?_⟩
  · rw [refs, head?_map, finds.first]
    rfl
  · refine each fun entry isFound => ?_
    obtain ⟨walk, -⟩ := finds.walked entry isFound
    rw [isRef entry isFound, frozenAt, contextRef, beq_iff_eq]
    constructor
    · intro none
      rw [none] at walk
      cases walk
      rfl
    · intro same
      have := finds.least entry isFound 0 (same ▸ .here)
      omega
  · refine each fun entry isFound => ?_
    rw [isRef entry isFound]
    exact ⟨_, (finds.walked entry isFound).2, (finds.walked entry isFound).1⟩
  · refine pairwise_map.mpr (finds.sorted.imp_of_mem fun {a b} isA isB le n walk => ?_)
    rw [isRef b isB] at walk
    rw [isRef a isA]
    exact ⟨a.2, le.trans (finds.least b isB n walk), (finds.walked a isA).1⟩
  · refine each fun entry isFound => ?_
    rw [isRef entry isFound]
    rfl
  · intro uncut ref
    rw [refs]
    refine ⟨fun isFound => ?_, finds.complete uncut ref⟩
    obtain ⟨entry, listed, rfl⟩ := mem_map.mp isFound
    exact ⟨_, (finds.walked entry listed).1⟩

/-- **A truncated closure misses something** exactly unless all that is reachable is near enough
and fits, and a block at the depth limit has a link. -/
theorem truncated_misses_iff (resolves : repo.Resolves root links blockAt)
    (docRevs : ExtTreeMap Text Nat) :
    ∃ closure, repo.resolveFromRootWithRevs root.1 root.2 docRevs = .ok closure ∧
      ((closure.closureTruncated = true → ∃ ref, Reachable links root ref ∧
          ref ∉ closure.refs.map TaskContextRef.ref) ↔
        ¬ Tight links maxRefDepth root maxRefNodes) := by
  obtain ⟨_, _, _, resolved, finds, isRef⟩ := resolves_finds resolves docRevs
  have refs := map_ref_frozenAt isRef
  refine ⟨_, resolved, ?_⟩
  rw [← finds.tight, refs]
  push Not
  rfl

/-! Blocks in a ring, each with a link to the next.  Of four the last one is at the limit, and its
link back to the first is cut; of three none is. -/

section Ring

variable {k : Nat}

def ringBlock (n : Fin (k + 1)) : Ref := (['t'], "b_000".toList ++ [Nat.digitChar n])

def ringRoot : Ref := (['t'], "b_0000".toList)

def ringValue (n : Fin (k + 1)) : Json UInt32 :=
  .object [("id".toList, .string (ringBlock n).2), ("kind".toList, .string kindTask),
    ("payload".toList, .object [("refs".toList,
      .array [.string ("neige://wave/".toList ++ refText (ringBlock (n + 1)))])]),
    ("rev".toList, .number 1)]

def ring (k : Nat) : Repo UInt32 where
  trackArea _ := .ok (some [])
  systemArea := .ok none
  reportSnapshot _ := .ok ⟨[], 0, (finRange (k + 1)).map ringValue⟩
  fromValue value := (strAt value "id".toList).bind fun id =>
    match strAt value "kind".toList, value.get "rev".toList, value.get "payload".toList with
    | some kind, some (.number rev), some payload => some ⟨id, kind, rev, payload⟩
    | _, _, _ => none
  fromValue_id read := by
    obtain ⟨_, isId, read⟩ := Option.bind_eq_some_iff.mp read
    split at read
    · cases read
      exact isId
    · cases read
  scanLinks _ := []
  hash _ block := block.id
  print _ := []

def ringLinks (k : Nat) (ref : Ref) : List Ref :=
  ((finRange (k + 1)).filter (ringBlock · = ref)).map fun n => ringBlock (n + 1)

def ringBlockAt (k : Nat) (ref : Ref) : ReportBlock UInt32 :=
  (((ring k).loadBlock ref true).toOption.map Prod.snd).getD ⟨[], [], 0, .null⟩

theorem ring_reachable {ref : Ref} (reachable : Reachable (ringLinks k) ringRoot ref) :
    ∃ n : Fin (k + 1), ref = ringBlock n := by
  obtain ⟨_, walk⟩ := reachable
  cases walk with
  | here => exact ⟨0, rfl⟩
  | link _ linked =>
    obtain ⟨n, -, isNext⟩ := mem_map.mp linked
    exact ⟨n + 1, isNext.symm⟩

theorem three_resolve : (ring 2).Resolves ringRoot (ringLinks 2) (ringBlockAt 2) := by
  refine ⟨[], none, rfl, rfl, fun ref reachable => ?_⟩
  obtain ⟨n, rfl⟩ := ring_reachable reachable
  exact match n with
    | 0 | 1 | 2 => ⟨_, fun _ => rfl, .inl rfl, rfl⟩

theorem four_resolve : (ring 3).Resolves ringRoot (ringLinks 3) (ringBlockAt 3) := by
  refine ⟨[], none, rfl, rfl, fun ref reachable => ?_⟩
  obtain ⟨n, rfl⟩ := ring_reachable reachable
  exact match n with
    | 0 | 1 | 2 | 3 => ⟨_, fun _ => rfl, .inl rfl, rfl⟩

/-- What is found from the first block. -/
def ringRun (k : Nat) : Option (List Ref × Bool) :=
  ((ring k).resolveFromRoot ringRoot.1 ringRoot.2).toOption.map fun closure =>
    (closure.refs.map TaskContextRef.ref, closure.closureTruncated)

theorem closure_of_ringRun {closure : FrozenClosure}
    (found : ringRun k = some (refs, truncated))
    (resolved : (ring k).resolveFromRoot ringRoot.1 ringRoot.2 = .ok closure) :
    closure.refs.map TaskContextRef.ref = refs ∧ closure.closureTruncated = truncated := by
  rw [ringRun, resolved] at found
  exact Prod.ext_iff.mp (Option.some.inj found)

theorem closure_complete_ring :
    ∃ closure, (ring 2).resolveFromRoot ringRoot.1 ringRoot.2 = .ok closure ∧
      Frozen (ring 2) ringRoot (ringLinks 2) (ringBlockAt 2) closure ∧
      closure.closureTruncated = false ∧
      closure.refs.map TaskContextRef.ref = (finRange 3).map ringBlock := by
  obtain ⟨closure, resolved, frozen⟩ := closure_complete three_resolve ∅
  have found : ringRun 2 = some ((finRange 3).map ringBlock, false) := by decide +kernel
  obtain ⟨refs, whole⟩ := closure_of_ringRun found resolved
  exact ⟨closure, resolved, frozen, whole, refs⟩

theorem truncated_misses_iff_ring :
    ∃ closure, (ring 3).resolveFromRoot ringRoot.1 ringRoot.2 = .ok closure ∧
      ((closure.closureTruncated = true → ∃ ref, Reachable (ringLinks 3) ringRoot ref ∧
          ref ∉ closure.refs.map TaskContextRef.ref) ↔
        ¬ Tight (ringLinks 3) maxRefDepth ringRoot maxRefNodes) :=
  truncated_misses_iff four_resolve ∅

/-- The closure of the ring is marked truncated and misses nothing. -/
theorem ring_truncated :
    ∃ closure, (ring 3).resolveFromRoot ringRoot.1 ringRoot.2 = .ok closure ∧
      closure.closureTruncated = true ∧ ∀ ref, Reachable (ringLinks 3) ringRoot ref →
        ref ∈ closure.refs.map TaskContextRef.ref := by
  have found : ringRun 3 = some ((finRange 4).map ringBlock, true) := by decide +kernel
  cases resolved : (ring 3).resolveFromRoot ringRoot.1 ringRoot.2 with
  | error =>
    rw [ringRun, resolved] at found
    cases found
  | ok closure =>
    obtain ⟨refs, truncated⟩ := closure_of_ringRun found resolved
    refine ⟨closure, rfl, truncated, fun ref reachable => ?_⟩
    obtain ⟨n, rfl⟩ := ring_reachable reachable
    rw [refs]
    exact mem_map_of_mem (mem_finRange n)

end Ring

end NeigeCalm.Context
