import NeigeCalm.EventLog.Retention

/-!
# Pruning never changes the last value of an overlay

An observation is sound for the log while every stored row up to its frontier is not newer than what
the observation knows of the row's key.  That survives appends, which are beyond the frontier, and
deletions by anyone.  So in a transaction that finds no overlay beyond the frontier, the observed
latest rows are the latest rows of their keys, whatever happened since they were read.
-/

namespace NeigeCalm.EventLog

open Library List Machine Fallible Function
open AppendLog (Later mem_delete)

/-! ## Keys -/

/-- The row is an overlay of this key. -/
def Row.HasKey (codec : OverlayCodec) (row : Row) (key : SqlKey) : Prop :=
  row.isOverlay = true ∧ codec.key row.payload = some key

theorem SqlValue.decode_injective {a b : SqlValue} (first : a.decode = some t)
    (second : b.decode = some t) : a = b := by
  cases t <;> cases a <;> cases b <;> simp_all [SqlValue.decode]

theorem SqlKey.quad_injective {a b : SqlKey} {quad : Quad} (first : a.quad = some quad)
    (second : b.quad = some quad) : a = b := by
  simp only [SqlKey.quad, Option.bind_eq_bind, Option.bind_eq_some_iff, Option.pure_def,
    Option.some.injEq] at first second
  obtain ⟨_, isPlugin, _, isEntityKind, _, isEntityId, _, isKind, rfl⟩ := first
  obtain ⟨_, isPlugin', _, isEntityKind', _, isEntityId', _, isKind', same⟩ := second
  cases same
  cases a
  cases b
  simp only [SqlKey.mk.injEq]
  exact ⟨SqlValue.decode_injective isPlugin isPlugin',
    SqlValue.decode_injective isEntityKind isEntityKind',
    SqlValue.decode_injective isEntityId isEntityId', SqlValue.decode_injective isKind isKind'⟩

/-! ## Sound observations -/

/-- What is known of a latest row. -/
structure Latest.Sound (codec : OverlayCodec) (log : Log) (latest : Latest) (quad : Quad) :
    Prop where
  given : latest.id ≤ log.last
  key : ∃ key, codec.key latest.payload = some key ∧ key.quad = some quad
  supported : latest.supported = codec.supported latest.payload
  stored : ∀ row ∈ log.rows, row.id = latest.id →
    row.isOverlay = true ∧ row.payload = latest.payload

/-- What is known of a candidate. -/
structure Candidate.Sound (codec : OverlayCodec) (log : Log) (candidate : Candidate) : Prop where
  given : candidate.id ≤ log.last
  stored : ∀ row ∈ log.rows, row.id = candidate.id →
    ∃ key, codec.key row.payload = some key ∧ key.quad = some candidate.quad

/-- The observation knows a row of the key of every stored row up to its frontier, none older. -/
structure Observation.Sound (codec : OverlayCodec) (log : Log) (observed : Observation) :
    Prop where
  given : observed.frontier ≤ log.last
  latest : ∀ quad latest, observed.latest quad = some latest → latest.Sound codec log quad
  covers : ∀ row ∈ log.rows, row.id ≤ observed.frontier → ∀ key, row.HasKey codec key →
    ∃ quad latest, key.quad = some quad ∧ observed.latest quad = some latest ∧ row.id ≤ latest.id

section Stable

variable {after : Log} (grown : Later before after)

include grown

theorem Latest.Sound.later {latest : Latest} (sound : latest.Sound codec before quad) :
    latest.Sound codec after quad where
  given := le_trans sound.given grown.last
  key := sound.key
  supported := sound.supported
  stored row member same :=
    sound.stored row (grown.old row member (same ▸ sound.given)) same

theorem Candidate.Sound.later {candidate : Candidate} (sound : candidate.Sound codec before) :
    candidate.Sound codec after where
  given := le_trans sound.given grown.last
  stored row member same :=
    sound.stored row (grown.old row member (same ▸ sound.given)) same

theorem Observation.Sound.later {observed : Observation} (sound : observed.Sound codec before) :
    observed.Sound codec after where
  given := le_trans sound.given grown.last
  latest quad latest isLatest := (sound.latest quad latest isLatest).later grown
  covers row member upTo :=
    sound.covers row (grown.old row member (le_trans upTo sound.given)) upTo

end Stable

theorem frontier_le (log : Log) : frontier log ≤ log.last := by
  unfold frontier
  cases isNewest : log.newest Row.isOverlay with
  | none => exact log.started
  | some row => exact (log.within row (log.newest_eq_some.mp isNewest).1).2

theorem le_frontier (member : row ∈ log.rows) (isOverlay : row.isOverlay = true) :
    row.id ≤ frontier log := by
  unfold frontier
  cases isNewest : log.newest Row.isOverlay with
  | none =>
    cases (log.newest_eq_none.mp isNewest row member).symm.trans isOverlay
  | some => exact (log.newest_eq_some.mp isNewest).2.2 row member isOverlay

theorem mem_keyedRows :
    row ∈ keyedRows codec log lower upper ↔ row ∈ log.rows ∧ lower < row.id ∧ row.id ≤ upper ∧
      ∃ key, row.HasKey codec key := by
  simp only [keyedRows, mem_filter, Bool.and_eq_true, decide_eq_true_eq, Option.isSome_iff_exists,
    Row.HasKey, exists_and_left]
  constructor
  · rintro ⟨member, ⟨⟨isOverlay, above⟩, upTo⟩, keyed⟩
    exact ⟨member, above, upTo, isOverlay, keyed⟩
  · rintro ⟨member, above, upTo, isOverlay, keyed⟩
    exact ⟨member, ⟨⟨isOverlay, above⟩, upTo⟩, keyed⟩

/-- Of every row in the range there is a latest row of the same key that is not older. -/
theorem exists_latestRow (member : row ∈ keyedRows codec log lower upper) :
    ∃ latest ∈ latestRows codec log lower upper,
      codec.key latest.payload = codec.key row.payload ∧ row.id ≤ latest.id := by
  obtain ⟨latest, inRange, sameKey, highest⟩ :=
    AppendLog.exists_highest (p := fun other => codec.key other.payload = codec.key row.payload)
      (log.ordered.filter _) member rfl
  refine ⟨latest, mem_filter.mpr ⟨inRange, all_eq_true.mpr fun other isOther => ?_⟩,
    sameKey, highest row member rfl⟩
  by_cases otherKey : codec.key other.payload = codec.key latest.payload
  · exact decide_eq_true (.inr (highest other isOther (otherKey.trans sameKey)))
  · exact decide_eq_true (.inl otherKey)

/-- What decoding the keys of rows gives. -/
theorem decodeRows_eq (decoded : decodeRows codec rows = some entries) (entry : Row × Quad) :
    entry ∈ entries ↔ entry.1 ∈ rows ∧
      ∃ key, codec.key entry.1.payload = some key ∧ key.quad = some entry.2 := by
  rw [mem_of_mapM decoded]
  constructor
  · rintro ⟨_, member, read⟩
    obtain ⟨_, isQuad, rfl⟩ := Option.map_eq_some_iff.mp read
    exact ⟨member, Option.bind_eq_some_iff.mp isQuad⟩
  · rintro ⟨member, keyed⟩
    exact ⟨entry.1, member, Option.map_eq_some_iff.mpr
      ⟨entry.2, Option.bind_eq_some_iff.mpr keyed, rfl⟩⟩

theorem exists_entry (decoded : decodeRows codec rows = some entries) (member : row ∈ rows) :
    ∃ quad, (row, quad) ∈ entries := by
  have read := isSome_mapM.mp (Option.isSome_iff_exists.mpr ⟨entries, decoded⟩) row member
  obtain ⟨_, isEntry⟩ := Option.isSome_iff_exists.mp read
  obtain ⟨quad, -, rfl⟩ := Option.map_eq_some_iff.mp isEntry
  exact ⟨quad, (mem_of_mapM decoded).mpr ⟨row, member, isEntry⟩⟩

namespace Observation

variable {latest : Quad → Option Latest}

/-- Recording never goes back to an older row. -/
theorem record_mono (codec : OverlayCodec) (entry : Row × Quad) (isOld : latest quad = some old) :
    ∃ new, record codec latest entry quad = some new ∧ old.id ≤ new.id := by
  unfold record
  split
  · next newer =>
    by_cases same : quad = entry.2
    · subst same
      rw [isOld, Option.all_some, decide_eq_true_eq] at newer
      exact ⟨_, update_self .., le_of_lt newer⟩
    · exact ⟨old, by rw [update_of_ne same]; exact isOld, le_refl _⟩
  · exact ⟨old, isOld, le_refl _⟩

theorem record_covers (codec : OverlayCodec) (latest : Quad → Option Latest) (entry : Row × Quad) :
    ∃ new, record codec latest entry entry.2 = some new ∧ entry.1.id ≤ new.id := by
  unfold record
  split
  · exact ⟨_, update_self .., le_refl _⟩
  · next older =>
    cases isOld : latest entry.2 with
    | none =>
      rw [isOld] at older
      exact absurd rfl older
    | some old =>
      rw [isOld, Option.all_some, decide_eq_true_eq] at older
      exact ⟨old, rfl, not_lt.mp older⟩

theorem record_eq (isNew : record codec latest entry quad = some new) :
    latest quad = some new ∨ quad = entry.2 ∧
      new = ⟨entry.1.id, entry.1.payload, codec.supported entry.1.payload⟩ := by
  unfold record at isNew
  split at isNew
  · by_cases same : quad = entry.2
    · subst same
      rw [update_self] at isNew
      exact .inr ⟨rfl, (Option.some.inj isNew).symm⟩
    · rw [update_of_ne same] at isNew
      exact .inl isNew
  · exact .inl isNew

theorem foldl_mono (codec : OverlayCodec) (entries : List (Row × Quad))
    (isOld : latest quad = some old) :
    ∃ new, entries.foldl (record codec) latest quad = some new ∧ old.id ≤ new.id := by
  induction entries generalizing latest old with
  | nil => exact ⟨old, isOld, le_refl _⟩
  | cons entry _ ih =>
    obtain ⟨_, isMiddle, le⟩ := record_mono codec entry isOld
    obtain ⟨new, isNew, le'⟩ := ih isMiddle
    exact ⟨new, isNew, le_trans le le'⟩

theorem foldl_covers (codec : OverlayCodec) (latest : Quad → Option Latest)
    {entries : List (Row × Quad)} (member : entry ∈ entries) :
    ∃ new, entries.foldl (record codec) latest entry.2 = some new ∧ entry.1.id ≤ new.id := by
  induction entries generalizing latest with
  | nil => cases member
  | cons _ rest ih =>
    rcases mem_cons.mp member with rfl | later
    · obtain ⟨_, isMiddle, le⟩ := record_covers codec latest entry
      obtain ⟨new, isNew, le'⟩ := foldl_mono codec rest isMiddle
      exact ⟨new, isNew, le_trans le le'⟩
    · exact ih _ later

theorem foldl_eq {entries : List (Row × Quad)}
    (isNew : entries.foldl (record codec) latest quad = some new) :
    latest quad = some new ∨ ∃ entry ∈ entries, quad = entry.2 ∧
      new = ⟨entry.1.id, entry.1.payload, codec.supported entry.1.payload⟩ := by
  induction entries generalizing latest with
  | nil => exact .inl isNew
  | cons first _ ih =>
    rcases ih isNew with old | ⟨entry, member, read⟩
    · rcases record_eq old with old | read
      · exact .inl old
      · exact .inr ⟨first, mem_cons_self, read⟩
    · exact .inr ⟨entry, mem_cons_of_mem _ member, read⟩

theorem Sound.empty (codec : OverlayCodec) (log : Log) : Observation.empty.Sound codec log where
  given := log.started
  latest := nofun
  covers row member upTo := by
    have := (log.within row member).1
    exact absurd upTo (not_le.mpr this)

/-- **Observing a range.**  The frontier was read before, when no identifier beyond `log.last` had
been given out. -/
theorem Sound.observeRange {observed next : Observation} (sound : observed.Sound codec log)
    (given : upper ≤ log.last) (done : observed.observeRange codec log upper = some next) :
    next.Sound codec log := by
  obtain ⟨entries, decoded, rfl⟩ := Option.map_eq_some_iff.mp done
  have read := decodeRows_eq decoded
  refine ⟨given, fun quad latest isLatest => ?_, fun row member upTo key hasKey => ?_⟩
  · rcases foldl_eq isLatest with old | ⟨entry, isEntry, rfl, rfl⟩
    · exact sound.latest quad latest old
    · obtain ⟨isRow, keyed⟩ := (read entry).mp isEntry
      obtain ⟨stored, -, -, key, isOverlay, -⟩ := mem_keyedRows.mp (mem_filter.mp isRow).1
      refine ⟨(log.within _ stored).2, keyed, rfl, fun row member same => ?_⟩
      rw [log.eq_of_id_eq member stored same]
      exact ⟨isOverlay, rfl⟩
  · by_cases known : row.id ≤ observed.frontier
    · obtain ⟨quad, _, isQuad, isOld, le⟩ := sound.covers row member known key hasKey
      obtain ⟨new, isNew, le'⟩ := foldl_mono codec entries isOld
      exact ⟨quad, new, isQuad, isNew, le_trans le le'⟩
    · have inRange : row ∈ keyedRows codec log observed.frontier upper :=
        mem_keyedRows.mpr ⟨member, not_le.mp known, upTo, key, hasKey⟩
      obtain ⟨_, isLatest, sameKey, le⟩ := exists_latestRow inRange
      obtain ⟨quad, isEntry⟩ := exists_entry decoded isLatest
      obtain ⟨-, key', isKey, isQuad⟩ := (read _).mp isEntry
      obtain rfl : key' = key := Option.some.inj (isKey.symm.trans (sameKey.trans hasKey.2))
      obtain ⟨new, isNew, le'⟩ := foldl_covers codec observed.latest isEntry
      exact ⟨quad, new, isQuad, isNew, le_trans le le'⟩

end Observation

/-! ## Batches -/

/-- Each row to delete is that of a candidate whose witness is relied on. -/
structure Batch.Sound (observed : Observation) (candidates : List Candidate) (batch : Batch) :
    Prop where
  relied : ∀ id ∈ batch.ids, ∃ candidate ∈ candidates, candidate.id = id ∧
    ∃ latest, observed.witness candidate = some latest ∧
      latest.id ∈ batch.witnesses.map Prod.fst

theorem Batch.Sound.collectOne (sound : batch.Sound observed candidates)
    (member : candidate ∈ candidates) :
    (Pass.collectOne observed batch candidate).Sound observed candidates := by
  unfold Pass.collectOne
  split
  · exact sound
  next latest isWitness =>
  have kept : ∀ id ∈ batch.witnesses.map Prod.fst,
      id ∈ ((latest.id, latest.payload) ::
        batch.witnesses.filter (·.1 ≠ latest.id)).map Prod.fst := by
    intro id among
    obtain ⟨witness, isWitness, rfl⟩ := mem_map.mp among
    by_cases same : witness.1 = latest.id
    · rw [same]
      exact mem_cons_self
    · exact mem_cons_of_mem _ (mem_map_of_mem (mem_filter.mpr ⟨isWitness, decide_eq_true same⟩))
  refine ⟨fun id asked => ?_⟩
  rcases mem_append.mp asked with old | new
  · obtain ⟨other, isOther, isId, found, isFound, among⟩ := sound.relied id old
    exact ⟨other, isOther, isId, found, isFound, kept _ among⟩
  · obtain rfl := mem_singleton.mp new
    exact ⟨candidate, member, rfl, latest, isWitness, mem_cons_self⟩

theorem Batch.Sound.collect (observed : Observation) (candidates : List Candidate) :
    (Pass.collect observed candidates).Sound observed candidates := by
  have fold : ∀ (rest : List Candidate) (batch : Batch), rest ⊆ candidates →
      batch.Sound observed candidates →
        (rest.foldl (Pass.collectOne observed) batch).Sound observed candidates := by
    intro rest
    induction rest with
    | nil => exact fun _ _ sound => sound
    | cons _ _ ih =>
      intro batch among sound
      exact ih _ (fun c isC => among (mem_cons_of_mem _ isC))
        (sound.collectOne (among mem_cons_self))
  exact fold candidates _ (List.Subset.refl _) ⟨nofun⟩

/-- An unchanged batch finds each of its witnesses stored. -/
theorem exists_stored (unchanged : Pass.unchanged log batch = true) {id : Int}
    (relied : id ∈ batch.witnesses.map Prod.fst) : ∃ row ∈ log.rows, row.id = id := by
  obtain ⟨sameLength, -⟩ := Bool.and_eq_true_iff.mp unchanged
  have found : ((Pass.current log batch).map Row.id).Nodup :=
    pairwise_map.mpr ((log.ordered.filter _).imp fun {a b} less => ne_of_lt less)
  have among : (Pass.current log batch).map Row.id ⊆ batch.witnesses.map Prod.fst := by
    intro other isOther
    obtain ⟨row, isRow, rfl⟩ := mem_map.mp isOther
    exact contains_iff_mem.mp (Bool.and_eq_true_iff.mp (mem_filter.mp isRow).2).2
  have enough : (batch.witnesses.map Prod.fst).length ≤
      ((Pass.current log batch).map Row.id).length := by
    rw [length_map, length_map]
    exact le_of_eq (of_decide_eq_true sameLength).symm
  have same := (found.subperm among).perm_of_length_le enough
  obtain ⟨row, isRow, isId⟩ := mem_map.mp (same.mem_iff.mpr relied)
  exact ⟨row, (mem_filter.mp isRow).1, isId⟩

/-! ## Transactions -/

/-- The row is the latest of its key, and this binary can read it. -/
structure Row.Settles (codec : OverlayCodec) (log : Log) (row : Row) (key : SqlKey) : Prop where
  stored : row ∈ log.rows
  keyed : row.HasKey codec key
  supported : codec.supported row.payload = true
  latest : ∀ other ∈ log.rows, other.HasKey codec key → other.id ≤ row.id

/-- The latest row of a key. -/
def latestOf (codec : OverlayCodec) (log : Log) (key : SqlKey) : Option Row :=
  log.newest fun row => row.isOverlay && (codec.key row.payload == some key)

theorem latestOf_eq_some :
    latestOf codec log key = some row ↔ row ∈ log.rows ∧ row.HasKey codec key ∧
      ∀ other ∈ log.rows, other.HasKey codec key → other.id ≤ row.id := by
  simp only [latestOf, log.newest_eq_some, Bool.and_eq_true, beq_iff_eq, Row.HasKey]

/-- What a committed transaction may do. -/
structure Commit.Safe (codec : OverlayCodec) (commit : Commit) : Prop where
  old : ∀ row ∈ commit.removed, row.atMs < commit.horizon
  listed : ∀ row ∈ commit.removed, row.kind ∈ eventsPruneKinds
  settled : ∀ row ∈ commit.removed, row.isOverlay = true →
    ∃ (key : SqlKey) (latest : Row), row.HasKey codec key ∧ row.id < latest.id ∧
      latest.Settles codec commit.before key ∧ latest.Settles codec commit.after key
  latest : ∀ key, latestOf codec commit.after key = latestOf codec commit.before key
  unsupported : ∀ key latest, latestOf codec commit.before key = some latest →
    codec.supported latest.payload = false → ∀ row ∈ commit.removed, ¬row.HasKey codec key
  marked : ∀ row ∈ commit.removed, ∃ mark, commit.after.mark = some mark ∧ row.id ≤ mark

/-- It is enough that what goes is old, of a listed kind and, for overlays, settled by a row that
is stored before. -/
theorem Commit.safe_of_settled {commit : Commit}
    (old : ∀ row ∈ commit.removed, row.atMs < commit.horizon)
    (listed : ∀ row ∈ commit.removed, row.kind ∈ eventsPruneKinds)
    (settled : ∀ row ∈ commit.removed, row.isOverlay = true →
      ∃ (key : SqlKey) (latest : Row), row.HasKey codec key ∧ row.id < latest.id ∧
        latest.Settles codec commit.before key) : commit.Safe codec := by
  -- the latest row of a key is not among what goes
  have kept : ∀ key latest, latest ∈ commit.before.rows → latest.HasKey codec key →
      (∀ other ∈ commit.before.rows, other.HasKey codec key → other.id ≤ latest.id) →
      commit.gone latest = false := by
    intro key latest stored hasKey highest
    by_contra gone
    have isRemoved : latest ∈ commit.removed := mem_filter.mpr ⟨stored, Bool.not_eq_false _ ▸ gone⟩
    obtain ⟨_, newer, hasKey', less, settles⟩ := settled latest isRemoved hasKey.1
    cases hasKey'.2.symm.trans hasKey.2
    exact absurd (highest newer settles.stored settles.keyed) (not_le.mpr less)
  refine ⟨old, listed, fun row isRemoved isOverlay => ?_, fun key => ?_, ?_,
    fun row isRemoved => ?_⟩
  · obtain ⟨key, latest, hasKey, less, settles⟩ := settled row isRemoved isOverlay
    refine ⟨key, latest, hasKey, less, settles, ?_, settles.keyed, settles.supported, ?_⟩
    · exact mem_delete.mpr
        ⟨settles.stored, kept key latest settles.stored settles.keyed settles.latest⟩
    · exact fun other isOther => settles.latest other (mem_delete.mp isOther).1
  · apply AppendLog.newest_delete
    intro row isLatest
    obtain ⟨stored, hasKey, highest⟩ := latestOf_eq_some.mp isLatest
    exact kept key row stored hasKey highest
  · intro key latest isLatest unreadable row isRemoved hasKey
    obtain ⟨_, newer, hasKey', _, settles⟩ := settled row isRemoved hasKey.1
    cases hasKey'.2.symm.trans hasKey.2
    obtain ⟨stored, isKey, highest⟩ := latestOf_eq_some.mp isLatest
    have same := commit.before.eq_of_id_eq stored settles.stored
      (le_antisymm (settles.latest latest stored isKey)
        (highest newer settles.stored settles.keyed))
    rw [same, settles.supported] at unreadable
    cases unreadable
  · obtain ⟨stored, gone⟩ := mem_filter.mp isRemoved
    exact commit.before.mark_delete stored gone

/-- **The overlay transaction.**  It found no overlay beyond the frontier, and its witnesses. -/
theorem overlay_commit_safe {observed : Observation} {candidates : List Candidate}
    (sound : observed.Sound codec log)
    (isSound : ∀ candidate ∈ candidates, candidate.Sound codec log)
    (batchSound : batch.Sound observed candidates) (upToDate : frontier log ≤ observed.frontier)
    (unchanged : Pass.unchanged log batch = true) :
    Commit.Safe codec ⟨horizon, log, fun row => row.isOverlay && decide (row.atMs < horizon) &&
      batch.ids.contains row.id⟩ := by
  have parts : ∀ row ∈ (Commit.mk horizon log fun row => row.isOverlay &&
      decide (row.atMs < horizon) && batch.ids.contains row.id).removed,
      row ∈ log.rows ∧ row.isOverlay = true ∧ row.atMs < horizon ∧ row.id ∈ batch.ids := by
    intro row isRemoved
    obtain ⟨stored, gone⟩ := mem_filter.mp isRemoved
    simp only [Bool.and_eq_true, decide_eq_true_eq, contains_iff_mem] at gone
    exact ⟨stored, gone.1.1, gone.1.2, gone.2⟩
  refine Commit.safe_of_settled (fun row isRemoved => (parts row isRemoved).2.2.1)
    (fun row isRemoved => ?_) (fun row isRemoved isOverlay => ?_)
  · have isOverlay := (parts row isRemoved).2.1
    rw [of_decide_eq_true isOverlay]
    decide
  obtain ⟨stored, -, -, asked⟩ := parts row isRemoved
  obtain ⟨candidate, isCandidate, isId, latest, isWitness, relied⟩ := batchSound.relied row.id asked
  obtain ⟨isLatest, usable⟩ := Option.filter_eq_some_iff.mp isWitness
  obtain ⟨readable, newer⟩ := Bool.and_eq_true_iff.mp usable
  obtain ⟨key, isKey, isQuad⟩ := (isSound candidate isCandidate).stored row stored isId.symm
  obtain ⟨witness, isStored, sameId⟩ := exists_stored unchanged relied
  have latestSound := sound.latest candidate.quad latest isLatest
  obtain ⟨witnessOverlay, samePayload⟩ := latestSound.stored witness isStored sameId
  obtain ⟨_, isKey', isQuad'⟩ := latestSound.key
  obtain rfl := SqlKey.quad_injective isQuad isQuad'
  refine ⟨key, witness, ⟨isOverlay, isKey⟩, ?_, isStored, ⟨witnessOverlay, samePayload ▸ isKey'⟩,
    ?_, fun other isOther hasKey => ?_⟩
  · rw [sameId, ← isId]
    exact of_decide_eq_true newer
  · rw [samePayload, ← latestSound.supported]
    exact readable
  · obtain ⟨_, _, isQuad'', isKnown, le⟩ := sound.covers other isOther
      (le_trans (le_frontier isOther hasKey.1) upToDate) key hasKey
    cases isQuad.symm.trans isQuad''
    cases isLatest.symm.trans isKnown
    rw [sameId]
    exact le

/-- A batch of a kind that keeps nothing back. -/
theorem plain_commit_safe {chosen : List Row} (listed : kind ∈ eventsPruneKinds)
    (plain : kind ≠ overlaySet) (matching : ∀ row ∈ chosen, row.kind = kind ∧ row.atMs < horizon) :
    Commit.Safe codec ⟨horizon, log, fun row => chosen.contains row⟩ := by
  have isChosen : ∀ row ∈ (Commit.mk horizon log fun row => chosen.contains row).removed,
      row ∈ chosen :=
    fun row isRemoved => contains_iff_mem.mp (mem_filter.mp isRemoved).2
  refine Commit.safe_of_settled (fun row isRemoved => (matching row (isChosen row isRemoved)).2)
    (fun row isRemoved => ?_) (fun row isRemoved isOverlay => ?_)
  · rw [(matching row (isChosen row isRemoved)).1]
    exact listed
  · have isKind := (matching row (isChosen row isRemoved)).1
    rw [of_decide_eq_true isOverlay] at isKind
    exact absurd isKind.symm plain

/-! ## Passes -/

structure Scan.Sound (codec : OverlayCodec) (log : Log) (scan : Scan) : Prop where
  observed : scan.observed.Sound codec log
  pending : ∀ candidate ∈ scan.pending, candidate.Sound codec log

def Flush.Sound (codec : OverlayCodec) (log : Log) (flush : Flush) : Prop :=
  ∀ candidate ∈ flush.candidates, candidate.Sound codec log

/-- What a pass knows between its steps. -/
def Phase.Sound (codec : OverlayCodec) (log : Log) : Phase → Prop
  | .next | .readFrontier | .finished => True
  | .plain kind => kind ∈ eventsPruneKinds ∧ kind ≠ overlaySet
  | .observe upper => upper ≤ log.last
  | .scan state => state.Sound codec log
  | .refresh state flush => state.Sound codec log ∧ flush.Sound codec log
  | .observeTail state flush upper =>
    state.Sound codec log ∧ flush.Sound codec log ∧ upper ≤ log.last
  | .write state flush batch =>
    state.Sound codec log ∧ flush.Sound codec log ∧ batch.Sound state.observed flush.candidates

structure Pass.Sound (codec : OverlayCodec) (log : Log) (pass : Pass) : Prop where
  kinds : ∀ kind ∈ pass.kinds, kind ∈ eventsPruneKinds
  phase : pass.phase.Sound codec log

section Stable

variable {after : Log} (grown : Later before after)

include grown

theorem Scan.Sound.later {scan : Scan} (sound : scan.Sound codec before) :
    scan.Sound codec after where
  observed := sound.observed.later grown
  pending candidate member := (sound.pending candidate member).later grown

theorem Flush.Sound.later {flush : Flush} (sound : flush.Sound codec before) :
    flush.Sound codec after :=
  fun candidate member => (sound candidate member).later grown

theorem Pass.Sound.later {pass : Pass} (sound : pass.Sound codec before) :
    pass.Sound codec after := by
  refine ⟨sound.kinds, ?_⟩
  have inPhase := sound.phase
  revert inPhase
  cases pass.phase with
  | next | readFrontier | finished | plain => exact id
  | observe => exact fun given => le_trans given grown.last
  | scan => exact fun sound => sound.later grown
  | refresh => exact fun both => ⟨both.1.later grown, both.2.later grown⟩
  | observeTail =>
    exact fun all => ⟨all.1.later grown, all.2.1.later grown, le_trans all.2.2 grown.last⟩
  | write =>
    exact fun all => ⟨all.1.later grown, all.2.1.later grown, all.2.2⟩

end Stable

namespace Pass

theorem drain_sound (size : Nat) (sound : scan.Sound codec log) :
    (drain size scan).Sound codec log := by
  unfold drain
  split
  · exact ⟨⟨sound.observed, fun c member => sound.pending c (mem_of_mem_drop member)⟩,
      fun c member => sound.pending c (mem_of_mem_take member)⟩
  · exact sound

theorem flushed_sound (size : Nat) (sound : scan.Sound codec log) :
    (flushed size scan flush).Sound codec log := by
  unfold flushed
  split
  · trivial
  · exact drain_sound size sound

theorem prepare_sound (sound : scan.Sound codec log)
    (flushSound : flush.Sound codec log) : (prepare size scan flush).Sound codec log := by
  unfold prepare
  simp only
  split
  · exact flushed_sound size sound
  · exact ⟨sound, flushSound, .collect _ _⟩

/-- The rows of a page are sound candidates. -/
theorem page_sound (decoded : decodeRows codec rows = some entries)
    (stored : ∀ row ∈ rows, row ∈ log.rows)
    (member : candidate ∈ entries.map fun entry => (⟨entry.1.id, entry.2⟩ : Candidate)) :
    candidate.Sound codec log := by
  obtain ⟨entry, isEntry, rfl⟩ := mem_map.mp member
  obtain ⟨isRow, keyed⟩ := (decodeRows_eq decoded entry).mp isEntry
  refine ⟨(log.within _ (stored _ isRow)).2, fun row isStored same => ?_⟩
  rw [log.eq_of_id_eq isStored (stored _ isRow) same]
  exact keyed

theorem mem_of_mem_candidateRows {cursor passFrontier horizon : Int}
    (member : row ∈ candidateRows codec log cursor passFrontier horizon) : row ∈ log.rows :=
  (mem_keyedRows.mp (mem_filter.mp (mem_of_mem_take member)).1).1

/-- **One step of a pass.**  It keeps what the pass knows, and what it commits is safe. -/
theorem step_sound {pass : Pass} (order : Reorder) (sound : pass.Sound codec log) :
    (pass.step codec order log).1.Sound codec log ∧
      ∀ commit, (pass.step codec order log).2 = some commit →
        commit.before = log ∧ commit.Safe codec := by
  have inPhase := sound.phase
  have quiet {phase : Phase} (isSound : phase.Sound codec log) :
      Pass.Sound codec log { pass with phase } ∧ ∀ commit : Commit, none = some commit →
        commit.before = log ∧ commit.Safe codec :=
    ⟨⟨sound.kinds, isSound⟩, nofun⟩
  unfold step
  cases isPhase : pass.phase with rw [isPhase] at inPhase
  | finished => exact quiet trivial
  | next =>
    simp only
    split
    · exact quiet trivial
    · next kind _ isKinds =>
      have listed := sound.kinds
      rw [isKinds] at listed
      refine ⟨⟨fun other later => listed other (mem_cons_of_mem _ later), ?_⟩, nofun⟩
      simp only
      split
      · trivial
      · next plain => exact ⟨listed kind mem_cons_self, plain⟩
  | plain =>
    refine ⟨⟨sound.kinds, ?_⟩, ?_⟩
    · simp only
      split
      · trivial
      · exact inPhase
    · rintro _ ⟨⟩
      refine ⟨rfl, plain_commit_safe inPhase.1 inPhase.2 fun row isChosen => ?_⟩
      have matching := (order.perm _).mem_iff.mp (mem_of_mem_take isChosen)
      simpa using (mem_filter.mp matching).2
  | readFrontier => exact quiet (frontier_le log)
  | observe =>
    simp only
    split
    · exact quiet trivial
    · next done =>
      exact quiet ⟨(Observation.Sound.empty codec log).observeRange inPhase done, nofun⟩
  | scan =>
    simp only
    split
    · exact quiet trivial
    · split
      · exact quiet trivial
      · exact quiet ⟨inPhase, inPhase.pending⟩
    · next decoded _ =>
      refine quiet (drain_sound _ ⟨inPhase.observed, fun candidate member => ?_⟩)
      rcases mem_append.mp member with old | new
      · exact inPhase.pending candidate old
      · exact page_sound decoded (fun _ => mem_of_mem_candidateRows) (mem_filter.mp new).1
  | refresh =>
    simp only
    split
    · exact quiet trivial
    split
    · exact quiet ⟨inPhase.1, inPhase.2, frontier_le log⟩
    · exact quiet (prepare_sound inPhase.1 inPhase.2)
  | observeTail =>
    simp only
    split
    · exact quiet trivial
    · next done =>
      exact quiet (prepare_sound ⟨inPhase.1.observed.observeRange inPhase.2.2 done,
        inPhase.1.pending⟩ inPhase.2.1)
  | write =>
    simp only
    split
    · exact quiet ⟨inPhase.1, inPhase.2.1⟩
    next upToDate =>
    split
    · exact quiet trivial
    next unchanged =>
    refine ⟨⟨sound.kinds, flushed_sound _ inPhase.1⟩, ?_⟩
    rintro _ ⟨⟩
    exact ⟨rfl, overlay_commit_safe inPhase.1.observed inPhase.2.1 inPhase.2.2
      (not_lt.mp upToDate) (not_not.mp unchanged)⟩

end Pass

/-! ## Every interleaving -/

namespace System

def Sound (codec : OverlayCodec) (s : System) : Prop :=
  ∀ slot pass, s.passes slot = some pass → pass.Sound codec s.log

variable {s : System}

theorem sound_update {log : Log} {slot : Nat} {next : Option Pass} (sound : s.Sound codec)
    (grown : Later s.log log) (isSound : ∀ pass, next = some pass → pass.Sound codec log) :
    Sound codec ⟨log, update s.passes slot next⟩ := by
  intro other pass isPass
  change update s.passes slot next other = some pass at isPass
  by_cases same : other = slot
  · subst same
    rw [update_self] at isPass
    exact isSound pass isPass
  · rw [update_of_ne same] at isPass
    exact (sound other pass isPass).later grown

/-- What one act does: the passes stay sound, and rows go only by safe transactions on the log of
that moment. -/
structure Reaction (codec : OverlayCodec) (s next : System) (commits : List Commit) : Prop where
  sound : next.Sound codec
  later : Later s.log next.log
  safe : ∀ commit ∈ commits, commit.Safe codec ∧ commit.before = s.log ∧ commit.after = next.log
  gone : ∀ row ∈ s.log.rows, row ∉ next.log.rows → ∃ commit ∈ commits, row ∈ commit.removed

theorem react_reaction (sound : s.Sound codec) (act : Act) :
    Reaction codec s (s.react codec act).1 (s.react codec act).2 := by
  have idle : Reaction codec s s [] :=
    ⟨sound, .refl _, forall_mem_nil _, fun _ member absent => absurd member absent⟩
  have still {slot : Nat} {next : Option Pass}
      (isSound : ∀ pass, next = some pass → pass.Sound codec s.log) :
      Reaction codec s ⟨s.log, update s.passes slot next⟩ [] :=
    { idle with sound := sound_update sound (.refl _) isSound }
  cases act with
  | append gap kind atMs payload =>
    have grown := Log.later_commit s.log gap kind atMs payload
    refine ⟨fun slot pass isPass => (sound slot pass isPass).later grown, grown,
      forall_mem_nil _, ?_⟩
    intro row member absent
    refine absurd ?_ absent
    simp only [react, Log.commit]
    split
    · exact AppendLog.mem_append.mpr (.inl member)
    · exact member
  | start =>
    apply still
    rintro _ ⟨⟩
    exact ⟨fun _ => id, trivial⟩
  | stop => exact still fun _ isPass => by cases isPass
  | fail slot =>
    simp only [react]
    split
    · exact idle
    · next pass isPass =>
      apply still
      rintro _ ⟨⟩
      exact ⟨(sound slot pass isPass).kinds, trivial⟩
  | step slot order =>
    simp only [react]
    split
    · exact idle
    next pass isPass =>
    obtain ⟨isSound, commits⟩ := Pass.step_sound order (sound slot pass isPass)
    generalize (pass.step codec order s.log).1 = next at isSound
    cases committed : (pass.step codec order s.log).2 with
    | none =>
      apply still
      rintro _ ⟨⟩
      exact isSound
    | some commit =>
      obtain ⟨isLog, safe⟩ := commits commit committed
      have grown : Later s.log commit.after := by
        rw [← isLog]
        exact AppendLog.later_delete _ _
      refine ⟨sound_update sound grown ?_, grown, ?_, ?_⟩
      · rintro _ ⟨⟩
        exact isSound.later grown
      · intro other isOther
        obtain rfl := mem_singleton.mp isOther
        exact ⟨safe, isLog, rfl⟩
      · intro row member absent
        refine ⟨commit, mem_singleton.mpr rfl, ?_⟩
        rw [← isLog] at member
        refine mem_filter.mpr ⟨member, ?_⟩
        by_contra stays
        exact absent (mem_delete.mpr ⟨member, by simpa using stays⟩)

theorem sound_run (sound : s.Sound codec) (acts : List Act) :
    (run (react codec) s acts).Sound codec :=
  run_preserves (Sound codec) (fun _ act isSound => (react_reaction isSound act).sound) sound acts

theorem run_later (sound : s.Sound codec) (acts : List Act) :
    Later s.log (run (react codec) s acts).log :=
  run_rel (Sound codec) (fun a b => Later a.log b.log)
    (fun _ act isSound => (react_reaction isSound act).sound) (fun _ => .refl _)
    (fun first second => first.trans second)
    (fun _ act isSound => (react_reaction isSound act).later)
    sound

/-- Rows go only by transactions of the run. -/
theorem exists_commit_of_gone (sound : s.Sound codec) (member : row ∈ s.log.rows)
    (absent : row ∉ (run (react codec) s acts).log.rows) :
    ∃ commit ∈ outputs (react codec) s acts, row ∈ commit.removed := by
  induction acts generalizing s with
  | nil => exact absurd member absent
  | cons act _ ih =>
    have reaction := react_reaction sound act
    by_cases stays : row ∈ (s.react codec act).1.log.rows
    · obtain ⟨commit, isCommit, isRemoved⟩ := ih reaction.sound stays absent
      exact ⟨commit, mem_append_right _ isCommit, isRemoved⟩
    · obtain ⟨commit, isCommit, isRemoved⟩ := reaction.gone row member stays
      exact ⟨commit, mem_append_left _ isCommit, isRemoved⟩

/-- **Pruning never changes an overlay's last value.**  In every interleaving of appends with
passes, each committed transaction is safe on the log of that moment, rows go only by such
transactions, the watermark is not below any identifier deleted so far and never decreases, and
rows of other kinds stay. -/
theorem pruning_keeps_latest (codec : OverlayCodec) (log : Log) (acts more : List Act) :
    let now := run (react codec) (start log) acts
    let later := run (react codec) now more
    (∀ commit ∈ outputs (react codec) (start log) acts, commit.Safe codec ∧
      (∃ before act after, acts = before ++ act :: after ∧
        commit.before = (run (react codec) (start log) before).log ∧
        commit.after = (run (react codec) (start log) (before ++ [act])).log) ∧
      ∀ row ∈ commit.removed, ∃ mark, now.log.mark = some mark ∧ row.id ≤ mark) ∧
    (∀ row ∈ now.log.rows, row ∉ later.log.rows →
      ∃ commit ∈ outputs (react codec) now more, row ∈ commit.removed) ∧
    (∀ mark, now.log.mark = some mark → ∃ mark', later.log.mark = some mark' ∧ mark ≤ mark') ∧
    (∀ row ∈ now.log.rows, row.kind ∉ eventsPruneKinds → row ∈ later.log.rows) := by
  have begins : (start log).Sound codec := nofun
  have safe {s : System} (sound : s.Sound codec) {acts : List Act} {commit : Commit}
      (isCommit : commit ∈ outputs (react codec) s acts) :
      ∃ before act after, acts = before ++ act :: after ∧ commit.Safe codec ∧
        commit.before = (run (react codec) s before).log ∧
        commit.after = (run (react codec) s (before ++ [act])).log := by
    obtain ⟨before, act, after, split, here⟩ := exists_of_mem_outputs _ isCommit
    have reaction := react_reaction (sound_run sound before) act
    obtain ⟨isSafe, isBefore, isAfter⟩ := reaction.safe commit here
    refine ⟨before, act, after, split, isSafe, isBefore, ?_⟩
    rw [run_append]
    exact isAfter
  have nowSound := sound_run begins acts
  refine ⟨fun commit isCommit => ?_, fun row => exists_commit_of_gone nowSound,
    (run_later nowSound more).mark, fun row member permanent => ?_⟩
  · obtain ⟨before, act, after, split, isSafe, isBefore, isAfter⟩ := safe begins isCommit
    refine ⟨isSafe, ⟨before, act, after, split, isBefore, isAfter⟩, fun row isRemoved => ?_⟩
    obtain ⟨mark, isMark, le⟩ := isSafe.marked row isRemoved
    rw [isAfter] at isMark
    have grown := run_later (sound_run begins (before ++ [act])) after
    obtain ⟨mark', isMark', le'⟩ := grown.mark mark isMark
    refine ⟨mark', ?_, le_trans le le'⟩
    rw [split, append_cons, run_append]
    exact isMark'
  · by_contra absent
    obtain ⟨_, isCommit, isRemoved⟩ := exists_commit_of_gone nowSound member absent
    obtain ⟨-, -, -, -, isSafe, -⟩ := safe nowSound isCommit
    exact permanent (isSafe.listed row isRemoved)

end System

end NeigeCalm.EventLog
