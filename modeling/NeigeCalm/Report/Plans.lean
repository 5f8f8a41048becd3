import NeigeCalm.Report.Tasks

/-!
# Clean plans are acyclic

The projection of a report never fails.  It puts a cycle diagnostic on exactly the task blocks
whose key lies on a cycle of the graph of the live declarations, and what it leaves without a
diagnostic can be scheduled: a live declaration whose block is clean is the only declaration of
its key, so the graph has its dependencies and not those of a later declaration, and a cycle
among clean declarations would be a cycle of the graph.
-/

namespace NeigeCalm.Report

open Library Relation List Option Std

variable {N : Type}

/-! ## Reading one block -/

variable {declarations : List TaskDeclaration} {payload : Json N}

theorem isObject_of_strAt (stored : strAt payload field = some text) : payload.isObject = true := by
  cases payload <;> first | rfl | simp [strAt, Json.get] at stored

/-- Normalising a payload moves the goal to the command and nothing else. -/
theorem get_normalize (notGoal : field ≠ "goal".toList) (notCommand : field ≠ "command".toList) :
    (normalizeLegacyTerminalCommand payload).get field = payload.get field := by
  cases payload with
  | object =>
    rw [normalizeLegacyTerminalCommand]
    split
    · rfl
    · split
      · rw [Json.get_insertMember_of_ne _ notCommand]
        simp only [Json.get, find?_filter]
        congr 2
        funext member
        by_cases same : member.1 = field
        · rw [same, decide_eq_true notGoal]
          simp
        · simp [same]
      · rfl
  | _ => rfl

theorem strAt_normalize (notGoal : field ≠ "goal".toList) (notCommand : field ≠ "command".toList) :
    strAt (normalizeLegacyTerminalCommand payload) field = strAt payload field := by
  rw [strAt, get_normalize notGoal notCommand, strAt]

theorem hasTombstone_normalize :
    hasTombstone (normalizeLegacyTerminalCommand payload) = hasTombstone payload := by
  rw [hasTombstone, get_normalize (by decide) (by decide), hasTombstone]

/-- A task payload is accepted when it is an object without errors and not too large. -/
theorem validatePayload_task_iff [JsonReader N] :
    validatePayload (fun _ payload => validateTask schema payload) kindTask payload = .ok () ↔
      payload.isObject = true ∧ validateTask schema payload = [] ∧
        ¬ maxCanonicalBytes < byteLength (canonicalJson payload) := by
  have isData : kindTask ∈ dataKinds := by decide
  simp only [validatePayload, if_pos isData]
  by_cases isObject : payload.isObject = true
  · by_cases errors : validateTask schema payload = []
    · by_cases large : maxCanonicalBytes < byteLength (canonicalJson payload)
      all_goals simp [isObject, errors, large]
    · simp [isObject, errors]
  · simp [isObject]

theorem key_of_keyErrors (none : keyErrors payload = []) : (strAt payload "key".toList).isSome := by
  rw [keyErrors] at none
  split at none
  case h_1 key stored =>
    rw [strAt, stored]
    rfl
  case h_2 => cases none

theorem of_requiredEnum (none : requiredEnum payload field allowed = []) :
    (strAt payload field).isSome := by
  rw [requiredEnum] at none
  split at none
  case isTrue named =>
    cases stored : strAt payload field with
    | none => simp [stored] at named
    | some => rfl
  case isFalse => cases none

/-- A tombstone without errors has none of the fields of a live task. -/
theorem get_of_tombstoneErrors (none : tombstoneErrors payload = []) (isField : field ∈ taskFields)
    (other : field ∉ tombstoneFields) : payload.get field = Option.none := by
  have absent := (append_eq_nil_iff.mp (append_eq_nil_iff.mp (append_eq_nil_iff.mp none).1).1).1
  rw [map_eq_nil_iff, filter_eq_nil_iff] at absent
  have missing := absent field (by simp [isField, other])
  simpa using missing

/-- What an accepted payload has: a key and an author, and if it is a tombstone no
dependencies. -/
theorem of_validateTask (accepted : validateTask schema payload = []) :
    (strAt payload "key".toList).isSome ∧ (strAt payload "declared_by".toList).isSome ∧
      (hasTombstone payload = true → dependsOnOf payload = []) := by
  rcases append_eq_nil_iff.mp accepted with ⟨front, back⟩
  have key := key_of_keyErrors (append_eq_nil_iff.mp front).2
  by_cases tombstone : hasTombstone payload = true
  · rw [if_pos tombstone] at back
    have author := (append_eq_nil_iff.mp (append_eq_nil_iff.mp (append_eq_nil_iff.mp back).1).1).2
    refine ⟨key, of_requiredEnum author, fun _ => ?_⟩
    rw [dependsOnOf, get_of_tombstoneErrors back (by decide) (by decide)]
  · rw [if_neg tombstone] at back
    exact ⟨key, schema.declared payload back, fun isTombstone => absurd isTombstone tombstone⟩

/-- The declaration a block makes, given the diagnostics of its own. -/
structure Declares (index : Nat) (block : ReportBlock N) (found : List Diagnostic)
    (declared : TaskDeclaration) : Prop where
  task : block.kind = kindTask
  blockIndex : declared.blockIndex = index
  key : strAt block.payload "key".toList = some declared.key
  tombstone : declared.tombstone = hasTombstone block.payload
  independent : found = [] → declared.tombstone = true → declared.dependsOn = []

/-- What reading a block gives. -/
structure ReadAs (index : Nat) (block : ReportBlock N)
    (entry : List Diagnostic × Option TaskDeclaration) : Prop where
  own : ∀ diagnostic ∈ entry.1, diagnostic.code ≠ .dependencyCycle
  declares : ∀ declared, entry.2 = some declared → Declares index block entry.1 declared

theorem declareTask_readAs (task : block.kind = kindTask)
    (own : ∀ diagnostic ∈ found, diagnostic.code ≠ .dependencyCycle)
    (keyed : (strAt (normalizeLegacyTerminalCommand block.payload) "key".toList).isSome)
    (authored : (strAt (normalizeLegacyTerminalCommand block.payload) "declared_by".toList).isSome)
    (independent : found = [] → hasTombstone (normalizeLegacyTerminalCommand block.payload) = true →
      dependsOnOf (normalizeLegacyTerminalCommand block.payload) = []) :
    ∃ entry, declareTask index block (normalizeLegacyTerminalCommand block.payload) found =
      some entry ∧ ReadAs index block entry := by
  rcases isSome_iff_exists.mp keyed with ⟨_, isKey⟩
  rcases isSome_iff_exists.mp authored with ⟨_, isAuthor⟩
  have isObject := isObject_of_strAt isKey
  refine ⟨_, by simp only [declareTask, isObject, isKey, isAuthor]; rfl, ?_, ?_⟩
  · intro diagnostic among
    rcases mem_append.mp among with old | new
    · exact own diagnostic old
    · split at new
      · rw [mem_singleton] at new
        subst new
        decide
      · cases new
  · intro declared same
    cases same
    refine ⟨task, rfl, ?_, hasTombstone_normalize, ?_⟩
    · rw [← strAt_normalize (by decide) (by decide), isKey]
    · intro clean
      exact independent (append_eq_nil_iff.mp clean).1

theorem readTaskBlock_readAs [JsonReader N] (schema : LiveTaskSchema N) (index : Nat)
    (block : ReportBlock N) :
    ∃ entry, readTaskBlock schema index block = some entry ∧ ReadAs index block entry := by
  rw [readTaskBlock]
  by_cases task : block.kind = kindTask
  · rw [if_pos task]
    dsimp only
    split
    case h_1 error _ =>
      have own : ∀ diagnostic ∈ [Diagnostic.invalid error], diagnostic.code ≠ .dependencyCycle := by
        intro diagnostic among
        rw [mem_singleton] at among
        subst among
        exact TaskDiagnosticCode.noConfusion
      split
      · exact ⟨_, rfl, own, nofun⟩
      · rename_i readable
        simp only [not_or, isNone_iff_eq_none, ← ne_eq, ne_none_iff_isSome] at readable
        exact declareTask_readAs task own readable.1 readable.2 (fun clean => nomatch clean)
    case h_2 accepted =>
      rcases of_validateTask (validatePayload_task_iff.mp accepted).2.1
        with ⟨keyed, authored, independent⟩
      exact declareTask_readAs task nofun keyed authored (fun _ => independent)
  · rw [if_neg task]
    exact ⟨_, rfl, nofun, nofun⟩

/-- Every block is read, each as at its index. -/
theorem readTaskBlocks_readAs [JsonReader N] (schema : LiveTaskSchema N)
    (blocks : List (ReportBlock N)) :
    ∀ start, ∃ read, readTaskBlocks schema start blocks = some read ∧
      read.length = blocks.length ∧
      ∀ i block entry, blocks[i]? = some block → read[i]? = some entry →
        ReadAs (start + i) block entry := by
  induction blocks with
  | nil =>
    intro start
    exact ⟨[], rfl, rfl, fun i block entry stored => by simp at stored⟩
  | cons block _ ih =>
    intro start
    rcases readTaskBlock_readAs schema start block with ⟨first, readFirst, asFirst⟩
    rcases ih (start + 1) with ⟨others, readOthers, same, asOthers⟩
    refine ⟨first :: others, by simp [readTaskBlocks, readFirst, readOthers], by simp [same], ?_⟩
    intro i other entry stored found
    cases i with
    | zero =>
      simp only [getElem?_cons_zero, some.injEq] at stored found
      subst stored found
      exact asFirst
    | succ i =>
      rw [getElem?_cons_succ] at stored found
      have later := asOthers i other entry stored found
      rwa [Nat.add_right_comm] at later

/-! ## Keys -/

theorem mem_dupKeysFrom : ∀ {rest seen emitted : List Text},
    key ∈ dupKeysFrom rest seen emitted ↔
      key ∉ emitted ∧ 2 ≤ rest.count key + if key ∈ seen then 1 else 0 := by
  intro rest
  induction rest with
  | nil =>
    intro seen emitted
    by_cases isSeen : key ∈ seen <;> simp [dupKeysFrom, isSeen]
  | cons first rest ih =>
    intro seen emitted
    rw [dupKeysFrom]
    by_cases same : first = key
    · subst same
      by_cases isSeen : first ∈ seen <;> by_cases out : first ∈ emitted <;> simp [isSeen, out, ih]
    · have count : (first :: rest).count key = rest.count key := count_cons_of_ne same
      rw [count]
      split
      · split
        · exact ih
        · simp [ih, Ne.symm same]
      · simp [ih, Ne.symm same]

theorem mem_dupKeys :
    key ∈ dupKeys declarations ↔ 2 ≤ (declarations.map TaskDeclaration.key).count key := by
  rw [dupKeys, mem_dupKeysFrom]
  simp

/-- A key declared at most once has one declaration. -/
theorem eq_of_count_le_one (once : (declarations.map TaskDeclaration.key).count one.key ≤ 1)
    (first : one ∈ declarations) (second : two ∈ declarations) (same : two.key = one.key) :
    two = one := by
  rcases append_of_mem first with ⟨before, after, rfl⟩
  have none (part : List TaskDeclaration)
      (few : (part.map TaskDeclaration.key).count one.key ≤ 0) : two ∉ part := by
    intro among
    have more : 0 < (part.map TaskDeclaration.key).count one.key :=
      count_pos_iff.mpr (mem_map.mpr ⟨two, among, same⟩)
    omega
  simp only [map_append, map_cons, count_append, count_cons_self] at once
  rcases mem_append.mp second with among | among
  · exact absurd among (none before (by omega))
  · rcases mem_cons.mp among with equal | among
    · exact equal
    · exact absurd among (none after (by omega))

/-- The dependencies a graph has for a key whose live declarations agree. -/
theorem declarationGraph_get (among : declared ∈ declarations) (live : declared.tombstone = false)
    (only : ∀ other ∈ declarations, other.key = declared.key → other = declared) :
    (declarationGraph declarations)[declared.key]? = some declared.dependsOn := by
  have inserted : ∀ (entries : List (Text × List Text)) (graph : ExtTreeMap Text (List Text)),
      (∀ entry ∈ entries, entry.1 = declared.key → entry.2 = declared.dependsOn) →
      (graph[declared.key]? = some declared.dependsOn ∨ ∃ entry ∈ entries, entry.1 = declared.key) →
      (graph.insertMany entries)[declared.key]? = some declared.dependsOn := by
    intro entries
    induction entries with
    | nil =>
      rintro graph _ (stored | ⟨entry, inside, _⟩)
      · simpa using stored
      · cases inside
    | cons entry _ ih =>
      rcases entry with ⟨key, dependencies⟩
      intro graph agree stored
      rw [ExtTreeMap.insertMany_cons]
      refine ih _ (fun other inside => agree other (mem_cons_of_mem _ inside)) ?_
      rw [OrderedMap.get_insert]
      by_cases same : declared.key = key
      · rw [if_pos same]
        exact .inl (congrArg some (agree (key, dependencies) mem_cons_self same.symm))
      · rw [if_neg same]
        refine stored.imp_right ?_
        rintro ⟨other, inside, equal⟩
        rcases mem_cons.mp inside with rfl | inside
        · exact absurd equal.symm same
        · exact ⟨other, inside, equal⟩
  rw [declarationGraph, ExtTreeMap.ofList_eq_insertMany_empty]
  apply inserted
  · intro entry inside same
    rcases mem_map.mp inside with ⟨other, isLive, rfl⟩
    rw [only other (mem_of_mem_filter isLive) same]
  · exact .inr ⟨_, mem_map.mpr ⟨declared, by simp [among, live], rfl⟩, rfl⟩

/-! ## The diagnostics of one block -/

theorem hasKeyIn_iff {keys : List Text} :
    hasKeyIn keys block = true ↔
      block.kind = kindTask ∧ ∃ key ∈ keys, strAt block.payload "key".toList = some key := by
  rw [hasKeyIn, Bool.and_eq_true, decide_eq_true_eq, Option.any_eq_true]
  simp only [decide_eq_true_eq, and_comm]

theorem redeclares_iff :
    redeclares key block = true ↔
      block.kind = kindTask ∧ hasTombstone block.payload = false ∧
        strAt block.payload "key".toList = some key := by
  rw [redeclares, taskBlockIsLive, Bool.and_eq_true, Bool.and_eq_true, decide_eq_true_eq,
    decide_eq_true_eq, Bool.not_eq_true', and_assoc]

theorem length_pushEach {A : Type} {applies : A → ReportBlock N → Bool}
    {diagnostic : A → Diagnostic} (items : List A) :
    ∀ {found : List (List Diagnostic)}, found.length = blocks.length →
      (pushEach blocks applies diagnostic items found).length = blocks.length := by
  induction items with
  | nil => exact id
  | cons _ _ ih =>
    intro found same
    exact ih (by simp [pushDiagnostic, same])

/-- A block gets the diagnostics of the items that apply to it, after those it has. -/
theorem getElem?_pushEach {A : Type} (applies : A → ReportBlock N → Bool)
    (diagnostic : A → Diagnostic) (items : List A) {i : Nat} (stored : blocks[i]? = some block) :
    ∀ {found : List (List Diagnostic)} {own : List Diagnostic}, found[i]? = some own →
      (pushEach blocks applies diagnostic items found)[i]? =
        some (own ++ (items.filter (applies · block)).map diagnostic) := by
  induction items with
  | nil =>
    intro found own has
    simpa [pushEach] using has
  | cons item _ ih =>
    intro found own has
    have next : (pushDiagnostic blocks (applies item) (diagnostic item) found)[i]? =
        some (if applies item block then own ++ [diagnostic item] else own) := by
      simp [pushDiagnostic, getElem?_zipWith, stored, has]
    refine (ih next).trans ?_
    by_cases one : applies item block = true <;> simp [one]

/-- The diagnostics of a block: its own, one for each duplicate key it has, one for each
tombstone it redeclares, and one for each cyclic component its key lies in. -/
def blockDiagnostics (blocks : List (ReportBlock N)) (declarations : List TaskDeclaration)
    (components : List (List Text × List Text)) (own : List Diagnostic) (block : ReportBlock N) :
    List Diagnostic :=
  own ++
    (((dupKeys declarations).filter (· ∉ tombstonedKeys declarations)).filter
      (hasKeyIn [·] block)).map (duplicateDiagnostic blocks) ++
    ((tombstonedKeys declarations).filter (redeclares · block)).map
      (tombstoneDiagnostic blocks declarations) ++
    (components.filter (hasKeyIn ·.1 block)).map (cycleDiagnostic blocks)

/-- What the projection of a report consists of. -/
structure Projected (blocks : List (ReportBlock N)) (declarations : List TaskDeclaration)
    (diagnostics : List (List Diagnostic)) (components : List (List Text × List Text)) : Prop where
  length : diagnostics.length = blocks.length
  partition : (digraph (declarationGraph declarations)).Partition components
  checked : ∀ (i : Nat) (block : ReportBlock N), blocks[i]? = some block → ∃ own,
    (∀ diagnostic ∈ own, diagnostic.code ≠ .dependencyCycle) ∧
    diagnostics[i]? = some (blockDiagnostics blocks declarations components own block)
  declared : ∀ declared ∈ declarations, ∃ block own, blocks[declared.blockIndex]? = some block ∧
    diagnostics[declared.blockIndex]? =
      some (blockDiagnostics blocks declarations components own block) ∧
    Declares declared.blockIndex block own declared

theorem projectTaskDeclarations_projected [JsonReader N] (schema : LiveTaskSchema N)
    (blocks : List (ReportBlock N)) :
    ∃ declarations diagnostics components,
      projectTaskDeclarations schema blocks = some (declarations, diagnostics) ∧
      Projected blocks declarations diagnostics components := by
  rcases readTaskBlocks_readAs schema blocks 0 with ⟨read, isRead, length, readAs⟩
  rcases (digraph (declarationGraph (read.filterMap (·.2)))).cyclicComponents_spec with
    ⟨components, found, partition⟩
  refine ⟨read.filterMap (·.2), _, components, by
    simp only [projectTaskDeclarations, isRead, cyclicComponents, bind_eq_bind, bind_some, found]
    rfl, ?_⟩
  -- the entry of a block is what its own diagnostics and those of the three checks are
  have checked (i : Nat) (block : ReportBlock N) (stored : blocks[i]? = some block)
      (entry : List Diagnostic × Option TaskDeclaration) (at_ : read[i]? = some entry) :=
    have first : (read.map (·.1))[i]? = some entry.1 := by simp [at_]
    getElem?_pushEach (fun component => hasKeyIn component.1) (cycleDiagnostic blocks) components
      stored
      (getElem?_pushEach redeclares (tombstoneDiagnostic blocks (read.filterMap (·.2)))
        (tombstonedKeys (read.filterMap (·.2))) stored
        (getElem?_pushEach (fun key => hasKeyIn [key]) (duplicateDiagnostic blocks)
          ((dupKeys (read.filterMap (·.2))).filter (· ∉ tombstonedKeys (read.filterMap (·.2))))
          stored first))
  constructor
  · apply length_pushEach
    apply length_pushEach
    apply length_pushEach
    rw [length_map, length]
  · exact partition
  · intro i block stored
    have inside := (List.getElem?_eq_some_iff.mp stored).1
    have at_ : read[i]? = some read[i] := getElem?_eq_getElem (by omega)
    have asRead := readAs i block _ stored at_
    exact ⟨read[i].1, asRead.own, checked i block stored _ at_⟩
  · intro declared among
    rcases mem_filterMap.mp among with ⟨entry, inside, makes⟩
    rcases mem_iff_getElem?.mp inside with ⟨i, at_⟩
    have bound := (List.getElem?_eq_some_iff.mp at_).1
    have stored : blocks[i]? = some blocks[i] := getElem?_eq_getElem (by omega)
    have declares := (readAs i _ entry stored at_).declares declared makes
    rw [Nat.zero_add] at declares
    rw [declares.blockIndex]
    exact ⟨blocks[i], entry.1, stored, checked i _ stored entry at_, declares⟩

/-! ## Clean plans -/

/-- The declaration of a block without diagnostics. -/
def Clean (declarations : List TaskDeclaration) (diagnostics : List (List Diagnostic))
    (declared : TaskDeclaration) : Prop :=
  declared ∈ declarations ∧ diagnostics[declared.blockIndex]? = some []

/-- One clean declaration depends on the key of another. -/
def CleanDependency (declarations : List TaskDeclaration) (diagnostics : List (List Diagnostic))
    (one two : TaskDeclaration) : Prop :=
  Clean declarations diagnostics one ∧ Clean declarations diagnostics two ∧ two.key ∈ one.dependsOn

section Projected

variable {blocks : List (ReportBlock N)}
  {diagnostics : List (List Diagnostic)} {components : List (List Text × List Text)}

section

variable (projected : Projected blocks declarations diagnostics components)

include projected

/-- A block has a cycle diagnostic exactly when it is a task block whose key lies on a cycle. -/
theorem Projected.cycle_iff {block : ReportBlock N} {found : List Diagnostic} {i : Nat}
    (stored : blocks[i]? = some block) (at_ : diagnostics[i]? = some found) :
    (∃ diagnostic ∈ found, diagnostic.code = .dependencyCycle) ↔
      block.kind = kindTask ∧ ∃ key, strAt block.payload "key".toList = some key ∧
        TransGen (digraph (declarationGraph declarations)).Arc key key := by
  rcases projected.checked i block stored with ⟨_, ownCodes, has⟩
  rw [has, some.injEq] at at_
  subst at_
  constructor
  · rintro ⟨diagnostic, among, isCycle⟩
    simp only [blockDiagnostics, mem_append] at among
    rcases among with ((among | among) | among) | among
    · exact absurd isCycle (ownCodes diagnostic among)
    · rcases mem_map.mp among with ⟨key, _, rfl⟩
      cases isCycle
    · rcases mem_map.mp among with ⟨key, _, rfl⟩
      cases isCycle
    · rcases mem_map.mp among with ⟨component, inside, rfl⟩
      rcases mem_filter.mp inside with ⟨listed, has⟩
      rcases hasKeyIn_iff.mp has with ⟨task, key, isMember, isKey⟩
      exact ⟨task, key, isKey, projected.partition.mem_iff.mp ⟨component, listed, isMember⟩⟩
  · rintro ⟨task, key, isKey, cyclic⟩
    rcases projected.partition.mem_iff.mpr cyclic with ⟨component, listed, isMember⟩
    refine ⟨cycleDiagnostic blocks component, mem_append_right _ (mem_map_of_mem ?_), rfl⟩
    exact mem_filter.mpr ⟨listed, hasKeyIn_iff.mpr ⟨task, key, isMember, isKey⟩⟩

/-- What the block of a clean declaration says. -/
theorem Projected.clean {declared : TaskDeclaration}
    (clean : Clean declarations diagnostics declared) :
    ∃ block, blocks[declared.blockIndex]? = some block ∧
      Declares declared.blockIndex block [] declared ∧
      (∀ key ∈ dupKeys declarations, key ∉ tombstonedKeys declarations →
        hasKeyIn [key] block = false) ∧
      ∀ key ∈ tombstonedKeys declarations, redeclares key block = false := by
  rcases projected.declared declared clean.1 with ⟨block, _, stored, has, declares⟩
  rw [clean.2, some.injEq] at has
  have nothing := has.symm
  simp only [blockDiagnostics, append_eq_nil_iff, map_eq_nil_iff] at nothing
  rcases nothing with ⟨⟨⟨rfl, noDuplicate⟩, noTombstone⟩, _⟩
  refine ⟨block, stored, declares, ?_, ?_⟩
  · intro key duplicate free
    have absent := filter_eq_nil_iff.mp noDuplicate key (by simp [duplicate, free])
    simpa using absent
  · intro key held
    have absent := filter_eq_nil_iff.mp noTombstone key held
    simpa using absent

/-- A clean live declaration is the only one of its key. -/
theorem Projected.only {declared : TaskDeclaration}
    (clean : Clean declarations diagnostics declared) (live : declared.tombstone = false) :
    (declarations.map TaskDeclaration.key).count declared.key ≤ 1 := by
  rcases projected.clean clean with ⟨_, _, declares, noDuplicate, noTombstone⟩
  have free : declared.key ∉ tombstonedKeys declarations := by
    intro held
    have redeclared := noTombstone declared.key held
    rw [redeclares_iff.mpr ⟨declares.task, declares.tombstone ▸ live, declares.key⟩] at redeclared
    cases redeclared
  by_contra more
  have flagged := noDuplicate declared.key (mem_dupKeys.mpr (by omega)) free
  rw [hasKeyIn_iff.mpr ⟨declares.task, declared.key, mem_singleton_self _, declares.key⟩] at flagged
  cases flagged

/-- A clean declaration with a dependency is live. -/
theorem Projected.live_of_dependency (depends : CleanDependency declarations diagnostics one two) :
    one.tombstone = false := by
  rcases projected.clean depends.1 with ⟨_, _, declares, _⟩
  by_contra tombstone
  have none := declares.independent rfl (by simpa using tombstone)
  have listed := depends.2.2
  rw [none] at listed
  cases listed

/-- Between clean live declarations a dependency is an arc of the graph. -/
theorem Projected.arc (depends : CleanDependency declarations diagnostics one two)
    (live : two.tombstone = false) :
    (digraph (declarationGraph declarations)).Arc one.key two.key := by
  have stored (declared : TaskDeclaration) (clean : Clean declarations diagnostics declared)
      (isLive : declared.tombstone = false) :
      (declarationGraph declarations)[declared.key]? = some declared.dependsOn :=
    declarationGraph_get clean.1 isLive fun other among same =>
      eq_of_count_le_one (projected.only clean isLive) clean.1 among same
  constructor
  · change two.key ∈ (declarationGraph declarations).getD one.key []
    rw [ExtTreeMap.getD_eq_getD_getElem?,
      stored one depends.1 (projected.live_of_dependency depends)]
    exact depends.2.2
  · change two.key ∈ (declarationGraph declarations).keys
    rw [ExtTreeMap.mem_keys, ExtTreeMap.mem_iff_isSome_getElem?, stored two depends.2.1 live]
    rfl

/-- A walk of clean dependencies to a live declaration is a walk of the graph. -/
theorem Projected.walk (walk : TransGen (CleanDependency declarations diagnostics) one two)
    (live : two.tombstone = false) :
    TransGen (digraph (declarationGraph declarations)).Arc one.key two.key := by
  induction walk using TransGen.head_induction_on with
  | single depends => exact .single (projected.arc depends live)
  | head depends onward ih =>
    -- what has a dependency itself is live
    rcases TransGen.head'_iff.mp onward with ⟨_, further, _⟩
    exact .head (projected.arc depends (projected.live_of_dependency further)) ih

theorem Projected.acyclic (declared : TaskDeclaration) :
    ¬ TransGen (CleanDependency declarations diagnostics) declared declared := by
  intro cycle
  rcases TransGen.head'_iff.mp cycle with ⟨_, depends, _⟩
  have cyclic := projected.walk cycle (projected.live_of_dependency depends)
  rcases projected.clean depends.1 with ⟨_, stored, declares, _⟩
  rcases (projected.cycle_iff stored depends.1.2).mpr
    ⟨declares.task, declared.key, declares.key, cyclic⟩ with ⟨diagnostic, among, _⟩
  cases among

end

end Projected

/-- What the searches of a dependency graph decide. -/
structure CyclesFound (graph : ExtTreeMap Text (List Text)) : Prop where
  none_iff : findCycle graph = none ↔ (digraph graph).Acyclic
  closed : ∀ cycle, findCycle graph = some cycle → Digraph.ClosedWalk (digraph graph).Arc cycle
  components : ∃ components, cyclicComponents graph = some components ∧
    (digraph graph).Partition components

/-- What the projection of a report decides. -/
structure PlanChecked (blocks : List (ReportBlock N)) (declarations : List TaskDeclaration)
    (diagnostics : List (List Diagnostic)) : Prop where
  length : diagnostics.length = blocks.length
  cycles : ∀ (i : Nat) (block : ReportBlock N) (found : List Diagnostic), blocks[i]? = some block →
    diagnostics[i]? = some found →
    ((∃ diagnostic ∈ found, diagnostic.code = .dependencyCycle) ↔
      block.kind = kindTask ∧ ∃ key, strAt block.payload "key".toList = some key ∧
        TransGen (digraph (declarationGraph declarations)).Arc key key)
  distinct : declarations.Pairwise fun one two =>
    Clean declarations diagnostics one → Clean declarations diagnostics two →
      one.key = two.key → one.tombstone = true ∧ two.tombstone = true
  acyclic : ∀ declared, ¬ TransGen (CleanDependency declarations diagnostics) declared declared

theorem Projected.planChecked {diagnostics : List (List Diagnostic)}
    (projected : Projected blocks declarations diagnostics components) :
    PlanChecked blocks declarations diagnostics := by
  constructor
  · exact projected.length
  · intro i block found stored at_
    exact projected.cycle_iff stored at_
  · apply pairwise_iff_forall_sublist.mpr
    intro one two both cleanOne cleanTwo same
    -- the two declarations count twice for their key
    have twice : 2 ≤ (declarations.map TaskDeclaration.key).count one.key := by
      rw [← replicate_sublist_iff]
      have keys := both.map TaskDeclaration.key
      simpa [replicate, ← same] using keys
    constructor
    · by_contra live
      have once := projected.only cleanOne (by simpa using live)
      omega
    · by_contra live
      have once := projected.only cleanTwo (by simpa using live)
      rw [← same] at once
      omega
  · exact projected.acyclic

variable [JsonReader N]

/-- **Cycles are found exactly and clean plans are acyclic.**  On every dependency graph the
search for a cycle returns nothing exactly when there is none and otherwise a closed walk, and
the cyclic components are the strongly connected components with an arc.  On every report the
projection returns, a cycle diagnostic stands on exactly the task blocks whose key lies on a
cycle, and clean declarations do not depend on each other in a cycle and share a key only where
both are tombstones. -/
theorem cycles_found_and_plans_checked (graph : ExtTreeMap Text (List Text))
    (schema : LiveTaskSchema N) (blocks : List (ReportBlock N)) :
    CyclesFound graph ∧ ∃ declarations diagnostics,
      projectTaskDeclarations schema blocks = some (declarations, diagnostics) ∧
      PlanChecked blocks declarations diagnostics := by
  constructor
  · exact ⟨Digraph.findCycle_eq_none, fun _ => Digraph.findCycle_closed,
      Digraph.cyclicComponents_spec _⟩
  · rcases projectTaskDeclarations_projected schema blocks with
      ⟨declarations, diagnostics, components, made, projected⟩
    exact ⟨declarations, diagnostics, made, projected.planChecked⟩

/-- The payload of a tombstone the user set. -/
def tombstonePayload (key : Text) : Json N :=
  .object [("declared_by".toList, .string "spec".toList), ("key".toList, .string key),
    ("tombstone".toList, .object []), ("tombstoned_by".toList, .string "user".toList)]

/-- A report with the tombstone of one task twice. -/
def tombstonedTwice : List (ReportBlock N) :=
  [⟨"b_0001".toList, kindTask, 1, tombstonePayload "gone".toList⟩,
    ⟨"b_0002".toList, kindTask, 1, tombstonePayload "gone".toList⟩]

/-- A schema that asks a live task for nothing but its author. -/
def authoredSchema : LiveTaskSchema N where
  errors := validateDeclaredBy
  declared _ none := of_requiredEnum none

/-- The declaration of a tombstone. -/
def tombstoneDeclaration (index : Nat) (id : Text) : TaskDeclaration :=
  ⟨index, id, "gone".toList, [], "spec".toList, some "user".toList, true⟩

theorem readTaskBlock_tombstone (index : Nat) (id : Text) :
    readTaskBlock (authoredSchema : LiveTaskSchema NumberToken) index
        ⟨id, kindTask, 1, tombstonePayload "gone".toList⟩ =
      some ([], some (tombstoneDeclaration index id)) := by
  -- the members stand in key order, so that sorting them changes nothing
  have written : canonicalJson (tombstonePayload "gone".toList : Json NumberToken) =
      ['\x7b', '\n'] ++ bodyLines 1 ((memberTexts 1
        [("declared_by".toList, (.string "spec".toList : Json NumberToken)),
          ("key".toList, .string "gone".toList), ("tombstone".toList, .object []),
          ("tombstoned_by".toList, .string "user".toList)]).map memberText) ++ pad 0 ++
            ['\x7d'] := by
    rw [canonicalJson, tombstonePayload, writeValue, mergeSort_of_pairwise (by decide +kernel)]
    rfl
  have small : ¬ maxCanonicalBytes < byteLength
      (canonicalJson (tombstonePayload "gone".toList : Json NumberToken)) := by
    rw [written]
    decide +kernel
  have errors : validateTask (authoredSchema : LiveTaskSchema NumberToken)
      (tombstonePayload "gone".toList) = [] := by decide +kernel
  have accepted : validatePayload
      (fun _ payload => validateTask (authoredSchema : LiveTaskSchema NumberToken) payload) kindTask
      (tombstonePayload "gone".toList) = .ok () :=
    validatePayload_task_iff.mpr ⟨rfl, errors, small⟩
  have same : normalizeLegacyTerminalCommand
      (tombstonePayload "gone".toList : Json NumberToken) = tombstonePayload "gone".toList := rfl
  rw [readTaskBlock, if_pos rfl]
  dsimp only
  rw [same, accepted]
  rfl

/-- Two tombstones of one key are no duplicates: both blocks are clean. -/
theorem tombstones_share_key :
    ∃ declarations diagnostics,
      projectTaskDeclarations (authoredSchema : LiveTaskSchema NumberToken) tombstonedTwice =
        some (declarations, diagnostics) ∧
      ¬ declarations.Pairwise fun one two =>
        Clean declarations diagnostics one → Clean declarations diagnostics two →
          one.key ≠ two.key := by
  have read : readTaskBlocks (authoredSchema : LiveTaskSchema NumberToken) 0 tombstonedTwice =
      some [([], some (tombstoneDeclaration 0 "b_0001".toList)),
        ([], some (tombstoneDeclaration 1 "b_0002".toList))] := by
    simp only [tombstonedTwice, readTaskBlocks, readTaskBlock_tombstone]
    rfl
  refine ⟨[tombstoneDeclaration 0 "b_0001".toList, tombstoneDeclaration 1 "b_0002".toList],
    [[], []], ?_, ?_⟩
  · rw [projectTaskDeclarations, read]
    decide +kernel
  · intro distinct
    have different := (pairwise_cons.mp distinct).1 _ (mem_singleton_self _)
    exact different ⟨by simp, rfl⟩ ⟨by simp, rfl⟩ rfl

end NeigeCalm.Report
