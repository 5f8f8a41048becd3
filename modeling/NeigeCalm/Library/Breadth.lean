import Mathlib.Data.List.Nodup
import Mathlib.Data.List.Perm.Subperm
import Mathlib.Algebra.Order.Group.Nat

/-!
# Breadth-first search with two limits

`explore` takes keys from a queue in order, each once, with the number of links it came by.  It
stops taking keys when there is no room left, and does not follow the links of a key at the depth
`limit`; `cut` records either.  `Frontier` is its invariant: what was found and what is queued is
listed by depth, and the depth of a found key is its distance from the root.

`explore_finds` says what a search finds: an uncut one all that is reachable (`Finds.complete`), and
one is cut although nothing is missing exactly when the graph is `Tight`.
-/

namespace NeigeCalm.Library

open List Prod

namespace Breadth

variable {K : Type}

/-- Walks of a length from the root. -/
inductive Walk (next : K → List K) (root : K) : Nat → K → Prop
  | here : Walk next root 0 root
  | link : Walk next root n a → b ∈ next a → Walk next root (n + 1) b

def Reachable (next : K → List K) (root key : K) : Prop := ∃ n, Walk next root n key

/-- `a` is no farther from the root than `b`. -/
def Nearer (next : K → List K) (root a b : K) : Prop :=
  ∀ n, Walk next root n b → ∃ m ≤ n, Walk next root m a

variable (next : K → List K) (limit : Nat)

/-- What following an entry queues. -/
def follow (entry : K × Nat) : List (K × Nat) :=
  if entry.2 = limit then [] else (next entry.1).map (·, entry.2 + 1)

/-- An entry whose links are not followed. -/
def cuts (entry : K × Nat) : Bool := entry.2 = limit && !(next entry.1).isEmpty

structure Frontier (root : K) (found queue : List (K × Nat)) (cut : Bool) : Prop where
  distinct : (found.map Prod.fst).Nodup
  first : (found ++ queue).head? = some (root, 0)
  walked : ∀ entry ∈ found ++ queue, Walk next root entry.2 entry.1 ∧ entry.2 ≤ limit
  sorted : (found ++ queue).Pairwise fun a b => a.2 ≤ b.2
  close : ∀ a ∈ queue, ∀ b ∈ queue, b.2 ≤ a.2 + 1
  least : ∀ entry ∈ found, ∀ n, Walk next root n entry.1 → entry.2 ≤ n
  followed : ∀ entry ∈ found, entry.2 < limit → ∀ key ∈ next entry.1,
    ∃ depth ≤ entry.2 + 1, (key, depth) ∈ found ++ queue
  cut_iff : cut = found.any (cuts next limit)

variable {next limit}

theorem Frontier.start : Frontier next limit root [] [(root, 0)] false where
  distinct := nodup_nil
  first := rfl
  walked := by simp [Walk.here]
  sorted := pairwise_singleton _ _
  close := by simp
  least := nofun
  followed := nofun
  cut_iff := rfl

/-- A walk ends in a found key, or the queue holds an entry no deeper than it is long. -/
theorem Frontier.walk (frontier : Frontier next limit root found queue cut)
    (walk : Walk next root n key) (short : n ≤ limit) :
    (∃ depth ≤ n, (key, depth) ∈ found) ∨ ∃ entry ∈ queue, entry.2 ≤ n := by
  have among : ∀ {key depth n}, (key, depth) ∈ found ++ queue → depth ≤ n →
      (∃ depth ≤ n, (key, depth) ∈ found) ∨ ∃ entry ∈ queue, entry.2 ≤ n := by
    intro key depth n listed le
    rcases mem_append.mp listed with isFound | queued
    · exact .inl ⟨depth, le, isFound⟩
    · exact .inr ⟨_, queued, le⟩
  induction walk with
  | here => exact among (mem_of_mem_head? frontier.first) (Nat.le_refl 0)
  | link _ links ih =>
    rcases ih (by omega) with ⟨_, _, isFound⟩ | ⟨entry, queued, _⟩
    · obtain ⟨_, le', listed⟩ := frontier.followed _ isFound (by simp only; omega) _ links
      exact among listed (by simp only at le'; omega)
    · exact .inr ⟨entry, queued, by omega⟩

/-- No walk to the head of the queue is shorter than its depth. -/
theorem Frontier.head_least (frontier : Frontier next limit root found (entry :: rest) cut)
    (fresh : entry.1 ∉ found.map fst) (walk : Walk next root n entry.1) : entry.2 ≤ n := by
  by_contra shorter
  have inner := (frontier.walked entry (by simp)).2
  rcases frontier.walk walk (by omega) with ⟨_, -, isFound⟩ | ⟨other, queued, _⟩
  · exact fresh (mem_map.mpr ⟨_, isFound, rfl⟩)
  · have sorted := (pairwise_cons.mp (pairwise_append.mp frontier.sorted).2.1).1
    rcases mem_cons.mp queued with rfl | later
    · omega
    · have := sorted other later
      omega

theorem mem_follow {entry new : K × Nat} :
    new ∈ follow next limit entry ↔
      entry.2 ≠ limit ∧ new.1 ∈ next entry.1 ∧ new.2 = entry.2 + 1 := by
  unfold follow
  split
  next atLimit => simp [atLimit]
  next inner =>
    rw [mem_map]
    exact ⟨fun ⟨_, links, same⟩ => same ▸ ⟨inner, links, rfl⟩,
      fun ⟨_, links, depth⟩ => ⟨_, links, Prod.ext rfl depth.symm⟩⟩

/-- **Step lemma.**  The head of the queue is taken and its links are queued. -/
theorem Frontier.visit (frontier : Frontier next limit root found (entry :: rest) cut)
    (fresh : entry.1 ∉ found.map fst) :
    Frontier next limit root (found ++ [entry]) (rest ++ follow next limit entry)
      (cut || cuts next limit entry) := by
  obtain ⟨walk, _⟩ := frontier.walked entry (by simp)
  have split : (found ++ [entry]) ++ (rest ++ follow next limit entry) =
      (found ++ entry :: rest) ++ follow next limit entry := by simp
  have sorted := frontier.sorted
  have upTo : ∀ other ∈ found ++ entry :: rest, other.2 ≤ entry.2 + 1 := by
    intro other listed
    rcases mem_append.mp listed with before | queued
    · have := (pairwise_append.mp sorted).2.2 other before entry mem_cons_self
      omega
    · exact frontier.close entry mem_cons_self other queued
  have from' : ∀ other ∈ rest, entry.2 ≤ other.2 :=
    (pairwise_cons.mp (pairwise_append.mp sorted).2.1).1
  refine ⟨?_, ?_, ?_, ?_, ?_, ?_, ?_, ?_⟩
  · rw [map_append, map_singleton, nodup_append', disjoint_singleton]
    exact ⟨frontier.distinct, nodup_singleton _, fresh⟩
  · rw [split, head?_append, frontier.first, Option.some_or]
  · rw [split]
    intro other listed
    rcases mem_append.mp listed with before | new
    · exact frontier.walked other before
    · obtain ⟨_, links, depth⟩ := mem_follow.mp new
      exact depth ▸ ⟨walk.link links, by omega⟩
  · rw [split]
    refine pairwise_append.mpr ⟨sorted, ?_, fun other before new queued => ?_⟩
    · refine pairwise_of_forall_mem_list fun a isNew b isNew' => ?_
      exact ((mem_follow.mp isNew).2.2.trans (mem_follow.mp isNew').2.2.symm).le
    · exact (mem_follow.mp queued).2.2 ▸ upTo other before
  · intro a queued b queued'
    have low : entry.2 ≤ a.2 := by
      rcases mem_append.mp queued with before | new
      · exact from' a before
      · exact (mem_follow.mp new).2.2 ▸ Nat.le_succ _
    have high : b.2 ≤ entry.2 + 1 := by
      rcases mem_append.mp queued' with before | new
      · exact upTo b (mem_append_right _ (mem_cons_of_mem _ before))
      · exact (mem_follow.mp new).2.2.le
    omega
  · intro other listed n walk
    rcases mem_append.mp listed with before | new
    · exact frontier.least other before n walk
    · rw [mem_singleton.mp new] at walk ⊢
      exact frontier.head_least fresh walk
  · rw [split]
    intro other listed inside key links
    rcases mem_append.mp listed with before | new
    · obtain ⟨depth, le, among⟩ := frontier.followed other before inside key links
      exact ⟨depth, le, mem_append_left _ among⟩
    · rw [mem_singleton.mp new] at inside links ⊢
      exact ⟨_, le_rfl, mem_append_right _ (mem_follow.mpr ⟨inside.ne, links, rfl⟩)⟩
  · rw [frontier.cut_iff, any_append, any_cons, any_nil, Bool.or_false]

/-! ## What a search finds -/

/-- With nothing queued, all that is within the limit is found. -/
theorem Frontier.near (frontier : Frontier next limit root found [] cut)
    (walk : Walk next root n key) (short : n ≤ limit) : key ∈ found.map fst := by
  rcases frontier.walk walk short with ⟨_, _, isFound⟩ | ⟨_, queued, _⟩
  · exact mem_map.mpr ⟨_, isFound, rfl⟩
  · cases queued

/-- **An uncut search is complete.** -/
theorem Frontier.complete (frontier : Frontier next limit root found [] false)
    (reachable : Reachable next root key) : key ∈ found.map fst := by
  obtain ⟨n, walk⟩ := reachable
  induction walk with
  | here => exact frontier.near .here (Nat.zero_le _)
  | link _ links ih =>
    obtain ⟨_, isFound, rfl⟩ := mem_map.mp ih
    obtain ⟨walk, inner⟩ := frontier.walked _ (mem_append_left _ isFound)
    rcases inner.eq_or_lt with atLimit | inner
    · -- the links of a key at the limit are cut
      have uncut := any_eq_false.mp frontier.cut_iff.symm _ isFound
      simp [cuts, ne_nil_of_mem links] at uncut
      exact absurd atLimit uncut
    · exact frontier.near (walk.link links) inner

/-- Everything reachable is within the limit and fits, and a key at the limit has links. -/
def Tight (next : K → List K) (limit : Nat) (root : K) (room : Nat) : Prop :=
  (∀ key, Reachable next root key → ∃ n ≤ limit, Walk next root n key) ∧
    (∃ keys : List K, keys.length ≤ room ∧ ∀ key, Reachable next root key → key ∈ keys) ∧
    ∃ key, Walk next root limit key ∧ (∀ n, Walk next root n key → limit ≤ n) ∧ next key ≠ []

/-- What a search with some room finds. -/
structure Finds (next : K → List K) (limit : Nat) (root : K) (room : Nat) (found : List (K × Nat))
    (cut : Bool) : Prop where
  distinct : (found.map Prod.fst).Nodup
  bounded : found.length ≤ room
  first : found.head? = some (root, 0)
  walked : ∀ entry ∈ found, Walk next root entry.2 entry.1 ∧ entry.2 ≤ limit
  least : ∀ entry ∈ found, ∀ n, Walk next root n entry.1 → entry.2 ≤ n
  sorted : found.Pairwise fun a b => a.2 ≤ b.2
  complete : cut = false → ∀ key, Reachable next root key → key ∈ found.map Prod.fst
  tight : (cut = true ∧ ∀ key, Reachable next root key → key ∈ found.map Prod.fst) ↔
    Tight next limit root room

/-! ## The search -/

variable [DecidableEq K]

/-- The queue from the first entry on that was not visited. -/
def pending (visited : List K) (queue : List (K × Nat)) : List (K × Nat) :=
  queue.dropWhile (·.1 ∈ visited)

variable (next limit) in
def explore : Nat → List (K × Nat) → List (K × Nat) → Bool → List (K × Nat) × Bool
  | room, found, queue, cut =>
    match pending (found.map Prod.fst) queue, room with
    | [], _ => (found, cut)
    | _ :: _, 0 => (found, true)
    | entry :: rest, room + 1 =>
      explore room (found ++ [entry]) (rest ++ follow next limit entry)
        (cut || cuts next limit entry)

/-- Queued keys that were found are dropped: they stand at no larger depth among the found. -/
theorem Frontier.skip (frontier : Frontier next limit root found queue cut) :
    Frontier next limit root found (pending (found.map fst) queue) cut := by
  have sub : (pending (found.map fst) queue).Sublist queue := dropWhile_sublist _
  have sub' := (Sublist.refl found).append sub
  refine ⟨frontier.distinct, ?_, fun entry listed => frontier.walked entry (sub'.subset listed),
    frontier.sorted.sublist sub', fun a queued b queued' => frontier.close a (sub.subset queued) b
      (sub.subset queued'), frontier.least, fun entry isFound inner key links => ?_,
    frontier.cut_iff⟩
  · have first := frontier.first
    cases found with
    | nil => cases queue <;> simp_all [pending]
    | cons => exact first
  · obtain ⟨depth, le, listed⟩ := frontier.followed entry isFound inner key links
    rcases mem_append.mp listed with before | queued
    · exact ⟨depth, le, mem_append_left _ before⟩
    rw [← takeWhile_append_dropWhile (p := (·.1 ∈ found.map fst)) (l := queue),
      mem_append] at queued
    rcases queued with dropped | kept
    · have isFound : key ∈ found.map fst := by
        simpa using all_eq_true.mp all_takeWhile _ dropped
      obtain ⟨⟨_, earlier⟩, before, rfl⟩ := mem_map.mp isFound
      have order := (pairwise_append.mp frontier.sorted).2.2 _ before _
        ((takeWhile_sublist _).subset dropped)
      exact ⟨earlier, Nat.le_trans order le, mem_append_left _ before⟩
    · exact ⟨depth, le, mem_append_right _ kept⟩

theorem fresh_of_pending {keys : List K} (isLeft : pending keys queue = entry :: rest) :
    entry.1 ∉ keys := by
  have head := head?_dropWhile_not (fun entry : K × Nat => decide (entry.1 ∈ keys)) queue
  rw [pending] at isLeft
  simpa [isLeft] using head

/-- **Run lemma.**  The search ends with nothing queued, or without room for a queued key. -/
theorem Frontier.explore (frontier : Frontier next limit root found queue cut) (room : Nat) :
    ∃ left found' cut', Frontier next limit root found' left cut' ∧
      found'.length ≤ found.length + room ∧
      ((left = [] ∧ Breadth.explore next limit room found queue cut = (found', cut')) ∨
        (found'.length = found.length + room ∧
          Breadth.explore next limit room found queue cut = (found', true) ∧
          ∃ entry ∈ left, entry.1 ∉ found'.map fst)) := by
  have skipped := frontier.skip
  induction room generalizing found queue cut with
  | zero =>
    unfold Breadth.explore
    rcases isLeft : pending (found.map fst) queue with _ | ⟨entry, rest⟩ <;> rw [isLeft] at skipped
    · exact ⟨[], found, cut, skipped, le_rfl, .inl ⟨rfl, rfl⟩⟩
    · exact ⟨_, found, cut, skipped, le_rfl,
        .inr ⟨rfl, rfl, entry, mem_cons_self, fresh_of_pending isLeft⟩⟩
  | succ _ ih =>
    unfold Breadth.explore
    rcases isLeft : pending (found.map fst) queue with _ | _ <;> rw [isLeft] at skipped
    · exact ⟨[], found, cut, skipped, by omega, .inl ⟨rfl, rfl⟩⟩
    · have visited := skipped.visit (fresh_of_pending isLeft)
      have explored := ih visited visited.skip
      rwa [length_append, length_singleton, Nat.add_assoc, Nat.add_comm 1] at explored

theorem explore_finds (next : K → List K) (limit : Nat) (root : K) {room : Nat}
    (hasRoom : 0 < room) :
    Finds next limit root room (explore next limit room [] [(root, 0)] false).1
      (explore next limit room [] [(root, 0)] false).2 := by
  have start : Frontier next limit root [] [(root, 0)] false := .start
  obtain ⟨_, found, _, frontier, bounded, ended⟩ := start.explore room
  rw [length_nil, Nat.zero_add] at bounded ended
  generalize explore next limit room [] [(root, 0)] false = result at ended
  have walked : ∀ entry ∈ found, _ := fun entry isFound =>
    frontier.walked entry (mem_append_left _ isFound)
  have sorted := (pairwise_append.mp frontier.sorted).1
  -- a search that finds everything reachable does so within the limits
  have fits : (∀ key, Reachable next root key → key ∈ found.map fst) →
      (∀ key, Reachable next root key → ∃ n ≤ limit, Walk next root n key) ∧
      ∃ keys : List K, keys.length ≤ room ∧ ∀ key, Reachable next root key → key ∈ keys := by
    refine fun all => ⟨fun key reachable => ?_, _, by rwa [length_map], all⟩
    obtain ⟨entry, isFound, rfl⟩ := mem_map.mp (all key reachable)
    exact ⟨_, (walked entry isFound).2, (walked entry isFound).1⟩
  rcases ended with ⟨rfl, rfl⟩ | ⟨_, rfl, entry, queued, missed⟩
  · have first := frontier.first
    rw [append_nil] at first
    refine ⟨frontier.distinct, bounded, first, walked, frontier.least, sorted, ?_, ?_, ?_⟩
    · rintro rfl key reachable
      exact frontier.complete reachable
    · rintro ⟨isCut, all⟩
      obtain ⟨entry, isFound, atLimit⟩ := any_eq_true.mp (frontier.cut_iff ▸ isCut)
      obtain ⟨atLimit, links⟩ : entry.2 = limit ∧ next entry.1 ≠ [] := by simpa [cuts] using atLimit
      exact ⟨(fits all).1, (fits all).2, entry.1, atLimit ▸ (walked entry isFound).1,
        fun n walk => atLimit ▸ frontier.least entry isFound n walk, links⟩
    · rintro ⟨inner, -, key, walk, least, links⟩
      obtain ⟨entry, isFound, rfl⟩ := mem_map.mp (frontier.near walk le_rfl)
      have atLimit : entry.2 = limit := le_antisymm (walked entry isFound).2
        (least _ (walked entry isFound).1)
      refine ⟨frontier.cut_iff.trans (any_eq_true.mpr ⟨entry, isFound, ?_⟩),
        fun other reachable => ?_⟩
      · simpa [cuts, atLimit] using links
      · obtain ⟨n, short, walk⟩ := inner other reachable
        exact frontier.near walk short
  · have outside : Reachable next root entry.1 :=
      ⟨_, (frontier.walked entry (mem_append_right _ queued)).1⟩
    have first := frontier.first
    rw [head?_append_of_ne_nil _ (ne_nil_of_length_pos (by omega))] at first
    refine ⟨frontier.distinct, bounded, first, walked, frontier.least, sorted, nofun, ?_, ?_⟩
    · rintro ⟨-, all⟩
      exact absurd (all _ outside) missed
    · rintro ⟨-, ⟨keys, _, all⟩, -⟩
      -- the keys found and the one missed are too many to fit
      have distinct : (entry.1 :: found.map fst).Nodup := nodup_cons.mpr ⟨missed, frontier.distinct⟩
      have subset : entry.1 :: found.map fst ⊆ keys := by
        intro key among
        rcases mem_cons.mp among with rfl | isFound
        · exact all _ outside
        · obtain ⟨other, listed, rfl⟩ := mem_map.mp isFound
          exact all _ ⟨_, (walked other listed).1⟩
      have := (subperm_of_subset distinct subset).length_le
      rw [length_cons, length_map] at this
      omega

end Breadth

end NeigeCalm.Library
