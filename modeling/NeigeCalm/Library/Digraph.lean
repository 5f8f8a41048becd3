import Mathlib.Algebra.GroupWithZero.Nat
import Mathlib.Data.List.Chain
import Mathlib.Data.List.Nodup
import Mathlib.Data.List.Perm.Subperm

/-!
# Searching a finite directed graph

A graph names its keys and lists for each key the keys it points at; a listed key the graph
does not have is no arc.  The module gives the three searches a dependency checker rests on,
each with what it decides.

* `findCycle`: a coloured depth-first search.  It returns nothing exactly when no key lies on
  a cycle (`findCycle_eq_none`), and otherwise a closed walk (`findCycle_closed`).
* `reachable`: a worklist search for a walk of at least one arc (`reachable_iff`).
* `cyclicComponents`: the strongly connected components that hold an arc, each with a closed
  walk inside it (`cyclicComponents_spec`).
-/

namespace NeigeCalm.Library

open List
open Function (update update_of_ne)

structure Digraph (K : Type) where
  keys : List K
  next : K → List K
  distinct : keys.Nodup
  inside : ∀ key, key ∉ keys → next key = []

namespace Digraph

open Relation

variable {K : Type}

/-- One key lists the other, which is a key as well. -/
def Arc (g : Digraph K) (a b : K) : Prop := b ∈ g.next a ∧ b ∈ g.keys

variable {g : Digraph K}

theorem mem_keys_of_next (listed : b ∈ g.next a) : a ∈ g.keys := by
  by_contra outside
  rw [g.inside a outside] at listed
  cases listed

theorem Arc.source (arc : g.Arc a b) : a ∈ g.keys := mem_keys_of_next arc.1

theorem target_of_walk (walk : TransGen g.Arc a b) : b ∈ g.keys := by
  cases walk with
  | single arc | tail _ arc => exact arc.2

theorem source_of_walk (walk : TransGen g.Arc a b) : a ∈ g.keys := by
  induction walk using TransGen.head_induction_on with
  | single arc | head arc => exact arc.source

/-- No key lies on a cycle. -/
def Acyclic (g : Digraph K) : Prop := ∀ key, ¬ TransGen g.Arc key key

/-- A walk along the arcs that ends where it began. -/
def ClosedWalk (arc : K → K → Prop) (walk : List K) : Prop :=
  ∃ key between, walk = key :: between ++ [key] ∧ walk.IsChain arc

/-- Every walk from the key is finite. -/
def Grounded (g : Digraph K) (key : K) : Prop := Acc (fun b a => g.Arc a b) key

theorem Grounded.not_cyclic (grounded : g.Grounded key) : ¬ TransGen g.Arc key key := by
  -- a cycle through the key is one through the key after it
  induction grounded with
  | intro _ _ ih =>
    intro cycle
    rcases TransGen.head'_iff.mp cycle with ⟨next, arc, back⟩
    exact ih next arc (TransGen.tail' back arc)

theorem walk_of_chain :
    ∀ {between : List K} {first last : K}, (first :: between ++ [last]).IsChain arc →
      TransGen arc first last
  | [], _, _, chain => .single (by simpa using chain)
  | _ :: _, _, _, chain => .head (by simp at chain; exact chain.1)
      (walk_of_chain (by simp at chain; simpa using chain.2))

theorem ClosedWalk.cyclic (closed : ClosedWalk arc walk) : ∃ key, TransGen arc key key := by
  rcases closed with ⟨key, _, rfl, chain⟩
  exact ⟨key, walk_of_chain chain⟩

/-! ## The coloured search -/

inductive Color where
  | white
  | gray
  | black
deriving DecidableEq

/-- How a visit ends: with a cycle, with the colours and the path it leaves, or out of fuel. -/
inductive Visit (K : Type) where
  | found (cycle : List K)
  | done (colors : K → Color) (path : List K)
  | exhausted

/-- The path is the walk of the gray keys, and no cycle runs through a black one. -/
structure Explored (g : Digraph K) (colors : K → Color) (path : List K) : Prop where
  gray : ∀ key, colors key = .gray ↔ key ∈ path
  chain : path.IsChain g.Arc
  black : ∀ key, colors key = .black → g.Grounded key

/-- A search leaves every key it finds coloured as it was. -/
def Keeps (colors colors' : K → Color) : Prop :=
  ∀ key, colors key ≠ .white → colors' key = colors key

theorem Keeps.trans {first second third : K → Color} (one : Keeps first second)
    (two : Keeps second third) : Keeps first third := by
  intro key colored
  rw [two key (by rwa [one key colored]), one key colored]

/-- What a search of the keys `finished` ends with. -/
def Visit.Meets (g : Digraph K) (colors : K → Color) (path finished : List K) : Visit K → Prop
  | .found cycle => ClosedWalk g.Arc cycle
  | .done colors' path' =>
    path' = path ∧ g.Explored colors' path ∧ Keeps colors colors' ∧
      ∀ key ∈ finished, key ∈ g.keys → colors' key = .black
  | .exhausted => False

/-- The keys not yet visited. -/
def whites (g : Digraph K) (colors : K → Color) : Nat := g.keys.countP (colors · = .white)

theorem whites_le_of_keeps {colors colors' : K → Color} (keeps : Keeps colors colors') :
    g.whites colors' ≤ g.whites colors := by
  apply countP_mono_left
  intro key _ white
  by_contra colored
  have same := keeps key (by simpa using colored)
  simp_all

theorem whites_le_length (g : Digraph K) (colors : K → Color) : g.whites colors ≤ g.keys.length :=
  countP_le_length

theorem explored_start (g : Digraph K) : g.Explored (fun _ => .white) [] :=
  ⟨by simp, isChain_nil, by simp⟩

theorem chain_snoc_snoc (chain : (path ++ [key]).IsChain arc) (next : arc key other) :
    (path ++ [key] ++ [other]).IsChain arc := by
  rw [isChain_append]
  refine ⟨chain, isChain_singleton _, ?_⟩
  intro last ends first begins
  simp only [getLast?_append, getLast?_singleton, Option.some_or, Option.mem_def,
    Option.some.injEq] at ends
  simp only [head?_cons, Option.mem_def, Option.some.injEq] at begins
  subst ends begins
  exact next

variable [DecidableEq K]

/-- The loop over what a key lists.  A gray key closes a cycle, a white one is visited, and a
black one or one the graph does not have is passed over. -/
def visitNext (g : Digraph K) (visit : K → (K → Color) → List K → Visit K) :
    List K → (K → Color) → List K → Visit K
  | [], colors, path => .done colors path
  | key :: rest, colors, path =>
    if key ∈ g.keys then
      match colors key with
      | .gray => .found (path.drop (path.idxOf key) ++ [key])
      | .white =>
        match visit key colors path with
        | .done colors path => visitNext g visit rest colors path
        | ended => ended
      | .black => visitNext g visit rest colors path
    else visitNext g visit rest colors path

/-- A key is gray and on the path while what it lists is visited, and black afterwards.  Each
visit inside another colours one more key, so the number of keys is fuel enough. -/
def visit (g : Digraph K) : Nat → K → (K → Color) → List K → Visit K
  | 0, _, _, _ => .exhausted
  | fuel + 1, key, colors, path =>
    match visitNext g (visit g fuel) (g.next key) (update colors key .gray)
        (path ++ [key]) with
    | .done colors path => .done (update colors key .black) path.dropLast
    | ended => ended

/-- The loop over the keys: every white one is visited. -/
def visitKeys (g : Digraph K) : List K → (K → Color) → List K → Option (List K)
  | [], _, _ => none
  | key :: rest, colors, path =>
    if colors key = .white then
      match visit g g.keys.length key colors path with
      | .found cycle => some cycle
      | .done colors path => visitKeys g rest colors path
      | .exhausted => none
    else visitKeys g rest colors path

def findCycle (g : Digraph K) : Option (List K) := visitKeys g g.keys (fun _ => .white) []

theorem whites_update_lt (white : colors key = .white) (colored : color ≠ .white)
    (known : key ∈ g.keys) : g.whites (update colors key color) < g.whites colors := by
  rcases append_of_mem known with ⟨before, after, split⟩
  have fewer (part : List K) :
      part.countP (update colors key color · = .white) ≤ part.countP (colors · = .white) := by
    apply countP_mono_left
    intro other _ still
    by_cases same : other = key
    · simp_all
    · simpa [update_of_ne same] using still
  have front := fewer before
  have back := fewer after
  simp only [whites, split, countP_append, countP_cons, Function.update_self, white,
    decide_true, colored, decide_false, if_true]
  simp only [Bool.false_eq_true, if_false]
  omega

/-- A gray key that the last key of the path lists closes a cycle. -/
theorem closedWalk_of_gray (on : key ∈ path) (chain : (path ++ [key]).IsChain g.Arc) :
    ClosedWalk g.Arc (path.drop (path.idxOf key) ++ [key]) := by
  have small := idxOf_lt_length_of_mem on
  have starts : path.drop (path.idxOf key) = key :: path.drop (path.idxOf key + 1) := by
    rw [drop_eq_getElem_cons small, getElem_idxOf]
  refine ⟨key, path.drop (path.idxOf key + 1), by rw [starts], ?_⟩
  rw [← drop_append_of_le_length small.le]
  exact chain.drop _

/-- The loop over what the last key of the path lists, given what a visit of a white key
does. -/
theorem visitNext_meets {search : K → (K → Color) → List K → Visit K} (path : List K) (room : Nat)
    (visits : ∀ key colors, g.Explored colors path → key ∈ g.keys → colors key = .white →
      (path ++ [key]).IsChain g.Arc → g.whites colors ≤ room →
      (search key colors path).Meets g colors path [key]) :
    ∀ (listed : List K) (colors : K → Color), g.Explored colors path →
      (∀ key ∈ listed, key ∈ g.keys → (path ++ [key]).IsChain g.Arc) → g.whites colors ≤ room →
      (visitNext g search listed colors path).Meets g colors path listed := by
  intro listed
  induction listed with
  | nil =>
    intro colors explored _ _
    exact ⟨rfl, explored, fun _ _ => rfl, nofun⟩
  | cons key rest ih =>
    intro colors explored chains fits
    have later (other : K) (among : other ∈ rest) := chains other (mem_cons_of_mem _ among)
    -- the rest of the loop, once the key is black or known to be none
    have onward (colors' : K → Color) (explored' : g.Explored colors' path)
        (keeps : Keeps colors colors') (black : key ∈ g.keys → colors' key = .black) :
        (visitNext g search rest colors' path).Meets g colors path (key :: rest) := by
      have went := ih colors' explored' later ((whites_le_of_keeps keeps).trans fits)
      revert went
      cases visitNext g search rest colors' path with
      | found | exhausted => exact id
      | done =>
        rintro ⟨kept, explored'', keeps', finished⟩
        refine ⟨kept, explored'', keeps.trans keeps', fun other among known => ?_⟩
        rcases mem_cons.mp among with rfl | among
        · rw [keeps' other (by simp [black known]), black known]
        · exact finished other among known
    rw [visitNext]
    split
    case isFalse unknown => exact onward colors explored (fun _ _ => rfl) (absurd · unknown)
    case isTrue known =>
      have extend := chains key mem_cons_self known
      split
      case h_1 gray => exact closedWalk_of_gray ((explored.gray key).mp gray) extend
      case h_2 white =>
        have went := visits key colors explored known white extend fits
        revert went
        cases search key colors path with
        | found | exhausted => exact id
        | done colors' =>
          rintro ⟨rfl, explored', keeps, finished⟩
          exact onward colors' explored' keeps (finished key mem_cons_self)
      case h_3 black => exact onward colors explored (fun _ _ => rfl) fun _ => black

/-- Colouring a white key gray extends the path by it. -/
theorem Explored.enter (explored : g.Explored colors path) (chain : (path ++ [key]).IsChain g.Arc) :
    g.Explored (update colors key .gray) (path ++ [key]) := by
  constructor
  · intro other
    by_cases same : other = key
    · simp [same]
    · simp [same, explored.gray other]
  · exact chain
  · intro other black
    by_cases same : other = key
    · simp [same] at black
    · exact explored.black other (by simpa [update_of_ne same] using black)

/-- Colouring the last key of the path black takes it off the path. -/
theorem Explored.leave (explored : g.Explored colors (path ++ [key])) (fresh : key ∉ path)
    (finished : ∀ other ∈ g.next key, other ∈ g.keys → colors other = .black) :
    g.Explored (update colors key .black) path := by
  constructor
  · intro other
    by_cases same : other = key
    · simp [same, fresh]
    · simp [same, explored.gray other]
  · exact explored.chain.left_of_append
  · intro other black
    by_cases same : other = key
    · subst same
      exact Acc.intro _ fun next arc => explored.black next (finished next arc.1 arc.2)
    · exact explored.black other (by simpa [update_of_ne same] using black)

theorem visit_meets (fuel : Nat) :
    ∀ (key : K) (colors : K → Color) (path : List K), g.Explored colors path → key ∈ g.keys →
      colors key = .white → (path ++ [key]).IsChain g.Arc → g.whites colors ≤ fuel →
      (visit g fuel key colors path).Meets g colors path [key] := by
  induction fuel with
  | zero =>
    intro key colors path _ known white _ fits
    have some : 0 < g.whites colors := countP_pos_iff.mpr ⟨key, known, by simp [white]⟩
    omega
  | succ fuel ih =>
    intro key colors path explored known white chain fits
    have fewer := whites_update_lt white (show Color.gray ≠ .white by decide) known
    have fresh : key ∉ path := by
      intro on
      have gray := (explored.gray key).mpr on
      simp [white] at gray
    have inner := visitNext_meets (path ++ [key]) fuel
      (fun other colors' => ih other colors' (path ++ [key]))
      (g.next key) (update colors key .gray) (explored.enter chain)
      (fun other listed known' => chain_snoc_snoc chain ⟨listed, known'⟩) (by omega)
    rw [visit]
    revert inner
    cases visitNext g (visit g fuel) (g.next key) (update colors key .gray)
      (path ++ [key]) with
    | found | exhausted => exact id
    | done colors' path' =>
      rintro ⟨rfl, explored', keeps, finished⟩
      refine ⟨by simp, explored'.leave fresh finished, ?_, by simp⟩
      intro other colored
      have different : other ≠ key := by
        rintro rfl
        exact colored white
      have same := keeps other (by simpa [update_of_ne different] using colored)
      simpa [update_of_ne different] using same

/-- The loop over the keys finds a closed walk, or leaves every key black. -/
theorem visitKeys_spec :
    ∀ (rest : List K) (colors : K → Color), (∀ key ∈ rest, key ∈ g.keys) →
      g.Explored colors [] →
      match visitKeys g rest colors [] with
      | some cycle => ClosedWalk g.Arc cycle
      | none => ∀ key, key ∈ rest ∨ colors key = .black → g.Grounded key := by
  intro rest
  induction rest with
  | nil =>
    intro colors _ explored key among
    rcases among with among | black
    · cases among
    · exact explored.black key black
  | cons key rest ih =>
    intro colors known explored
    have keyKnown := known key mem_cons_self
    have restKnown (other : K) (among : other ∈ rest) := known other (mem_cons_of_mem _ among)
    -- the rest of the loop, once the key is black
    have onward (colors' : K → Color) (explored' : g.Explored colors' [])
        (keeps : Keeps colors colors') (black : colors' key = .black) :
        match visitKeys g rest colors' [] with
        | some cycle => ClosedWalk g.Arc cycle
        | none => ∀ other, other ∈ key :: rest ∨ colors other = .black → g.Grounded other := by
      have went := ih colors' restKnown explored'
      revert went
      cases visitKeys g rest colors' [] with
      | some => exact id
      | none =>
        intro grounded other among
        apply grounded other
        rcases among with among | was
        · rcases mem_cons.mp among with rfl | among
          · exact .inr black
          · exact .inl among
        · exact .inr (by rw [keeps other (by simp [was]), was])
    rw [visitKeys]
    by_cases white : colors key = .white
    · rw [if_pos white]
      have went := visit_meets g.keys.length key colors [] explored keyKnown white
        (isChain_singleton _) (g.whites_le_length colors)
      revert went
      cases visit g g.keys.length key colors [] with
      | found => exact id
      | exhausted => exact False.elim
      | done colors' =>
        rintro ⟨rfl, explored', keeps, finished⟩
        exact onward colors' explored' keeps (finished key mem_cons_self keyKnown)
    · rw [if_neg white]
      apply onward colors explored (fun _ _ => rfl)
      -- no key is gray while the path is empty
      cases color : colors key with
      | white => exact absurd color white
      | gray => exact absurd ((explored.gray key).mp color) (by simp)
      | black => rfl

/-- **Soundness.**  A cycle the search returns is a closed walk along the arcs. -/
theorem findCycle_closed (found : g.findCycle = some cycle) : ClosedWalk g.Arc cycle := by
  have spec := visitKeys_spec g.keys (fun _ => .white) (fun _ known => known) g.explored_start
  rw [show visitKeys g g.keys (fun _ => .white) [] = some cycle from found] at spec
  exact spec

/-- **Exactness.**  The search returns nothing exactly when the graph has no cycle. -/
theorem findCycle_eq_none : g.findCycle = none ↔ g.Acyclic := by
  constructor
  · intro nothing key cycle
    have spec := visitKeys_spec g.keys (fun _ => .white) (fun _ known => known) g.explored_start
    rw [show visitKeys g g.keys (fun _ => .white) [] = none from nothing] at spec
    exact (spec key (.inl (source_of_walk cycle))).not_cyclic cycle
  · intro acyclic
    cases found : g.findCycle with
    | none => rfl
    | some =>
      rcases (findCycle_closed found).cyclic with ⟨key, walk⟩
      exact absurd walk (acyclic key)

/-! ## The worklist search -/

/-- The loop over the pending keys, the last one pushed first.  A key is expanded once: the
search ends at the first key that lists `target`. -/
def search (g : Digraph K) (target : K) : Nat → List K → List K → Bool
  | 0, _, _ => false
  | _ + 1, [], _ => false
  | fuel + 1, key :: pending, seen =>
    if key ∈ seen then search g target fuel pending seen
    else if target ∈ g.next key then true
    else search g target fuel (((g.next key).filter (· ∈ g.keys)).reverse ++ pending) (key :: seen)

/-- What the loop still has to do: the pending keys, and what the keys not yet seen list. -/
def workload (g : Digraph K) (pending seen : List K) : Nat :=
  pending.length + ((g.keys.filter (· ∉ seen)).map fun key => (g.next key).length).sum

/-- Whether a walk of at least one arc leads from one key to the other. -/
def reachable (g : Digraph K) (source target : K) : Bool :=
  search g target (g.workload [source] []) [source] []

/-- Every key seen was expanded: it does not list the target, and the keys it lists are seen
or pending. -/
def Expanded (g : Digraph K) (target : K) (pending seen : List K) : Prop :=
  ∀ key ∈ seen, target ∉ g.next key ∧ ∀ next ∈ g.next key, next ∈ g.keys →
    next ∈ seen ∨ next ∈ pending

/-- The key lists another, whether or not that is a key. -/
def Lists (g : Digraph K) (a b : K) : Prop := b ∈ g.next a

omit [DecidableEq K] in
/-- A walk from an expanded key leaves the expanded keys through a pending one. -/
theorem Expanded.leaves (expanded : g.Expanded target pending seen)
    (walk : TransGen g.Lists key target) :
    key ∈ seen → ∃ next ∈ pending, TransGen g.Lists next target := by
  induction walk using TransGen.head_induction_on with
  | single listed =>
    intro isSeen
    exact absurd listed (expanded _ isSeen).1
  | @head key next listed onward ih =>
    intro isSeen
    have known : next ∈ g.keys := by
      rcases TransGen.head'_iff.mp onward with ⟨_, further, _⟩
      exact mem_keys_of_next further
    rcases (expanded key isSeen).2 next listed known with again | waiting
    · exact ih again
    · exact ⟨next, waiting, onward⟩

theorem workload_expand (pending : List K) (fresh : key ∉ seen) :
    g.workload (((g.next key).filter (· ∈ g.keys)).reverse ++ pending) (key :: seen) <
      g.workload (key :: pending) seen := by
  have pushed : ((g.next key).filter (· ∈ g.keys)).length ≤ (g.next key).length :=
    length_filter_le _ _
  -- the key leaves the keys not yet seen
  have parted : ∀ keys : List K,
      ((keys.filter (· ∉ key :: seen)).map fun other => (g.next other).length).sum +
          (if key ∈ keys then (g.next key).length else 0) ≤
        ((keys.filter (· ∉ seen)).map fun other => (g.next other).length).sum := by
    intro keys
    induction keys with
    | nil => simp
    | cons other _ ih =>
      by_cases same : other = key
      · subst same
        simp only [mem_cons, true_or, if_true, not_true_eq_false, decide_false,
          filter_cons, fresh, not_false_eq_true, decide_true, map_cons, sum_cons,
          Bool.false_eq_true, if_false]
        simp only [mem_cons] at ih
        split at ih <;> omega
      · by_cases was : other ∈ seen
        · simpa [filter_cons, was, same, Ne.symm same] using ih
        · simp only [filter_cons, mem_cons, same, was, or_self, not_false_eq_true,
            decide_true, if_true, map_cons, sum_cons, Ne.symm same, false_or]
          simp only [mem_cons] at ih
          omega
  have split := parted g.keys
  simp only [workload, length_append, length_reverse, length_cons]
  by_cases known : key ∈ g.keys
  · rw [if_pos known] at split
    omega
  · rw [if_neg known] at split
    rw [g.inside key known] at pushed ⊢
    simp only [length_nil, Nat.le_zero_eq] at pushed
    simp only [filter_nil, length_nil]
    omega

/-- Given fuel for its workload, the loop decides whether a pending key leads to the target. -/
theorem search_iff :
    ∀ pending seen : List K, g.Expanded target pending seen → g.workload pending seen ≤ fuel →
      (search g target fuel pending seen = true ↔
        ∃ key ∈ pending, TransGen g.Lists key target) := by
  induction fuel with
  | zero =>
    intro pending seen _ fits
    have none : pending = [] := length_eq_zero_iff.mp (by unfold workload at fits; omega)
    simp [search, none]
  | succ _ ih =>
    intro pending seen expanded fits
    cases pending with
    | nil => simp [search]
    | cons key pending =>
      rw [search]
      by_cases isSeen : key ∈ seen
      · rw [if_pos isSeen]
        have expanded' : g.Expanded target pending seen := by
          intro other among
          refine ⟨(expanded other among).1, fun next listed known => ?_⟩
          rcases (expanded other among).2 next listed known with again | waiting
          · exact .inl again
          · rcases mem_cons.mp waiting with rfl | waiting
            · exact .inl isSeen
            · exact .inr waiting
        rw [ih pending seen expanded' (by simp only [workload, length_cons] at fits ⊢; omega)]
        constructor
        · rintro ⟨other, among, walk⟩
          exact ⟨other, mem_cons_of_mem _ among, walk⟩
        · rintro ⟨other, among, walk⟩
          rcases mem_cons.mp among with rfl | among
          · exact expanded'.leaves walk isSeen
          · exact ⟨other, among, walk⟩
      · rw [if_neg isSeen]
        by_cases ends : target ∈ g.next key
        · rw [if_pos ends]
          exact ⟨fun _ => ⟨key, mem_cons_self, .single ends⟩, fun _ => rfl⟩
        · rw [if_neg ends]
          have expanded' : g.Expanded target
              (((g.next key).filter (· ∈ g.keys)).reverse ++ pending) (key :: seen) := by
            intro other among
            rcases mem_cons.mp among with rfl | among
            · exact ⟨ends, fun next listed known => .inr (by simp [listed, known])⟩
            · refine ⟨(expanded other among).1, fun next listed known => ?_⟩
              rcases (expanded other among).2 next listed known with again | waiting
              · exact .inl (mem_cons_of_mem _ again)
              · rcases mem_cons.mp waiting with rfl | waiting
                · exact .inl mem_cons_self
                · exact .inr (mem_append_right _ waiting)
          have lighter := workload_expand (g := g) pending isSeen
          rw [ih _ _ expanded' (by omega)]
          constructor
          · rintro ⟨other, among, walk⟩
            rcases mem_append.mp among with pushed | waiting
            · rw [mem_reverse, mem_filter] at pushed
              exact ⟨key, mem_cons_self, .head pushed.1 walk⟩
            · exact ⟨other, mem_cons_of_mem _ waiting, walk⟩
          · rintro ⟨other, among, walk⟩
            rcases mem_cons.mp among with rfl | among
            · exact expanded'.leaves walk mem_cons_self
            · exact ⟨other, mem_append_right _ among, walk⟩

omit [DecidableEq K] in
theorem walk_of_lists (known : b ∈ g.keys) (walk : TransGen g.Lists a b) : TransGen g.Arc a b := by
  induction walk using TransGen.head_induction_on with
  | single listed => exact .single ⟨listed, known⟩
  | head listed _ ih => exact .head ⟨listed, source_of_walk ih⟩ ih

/-- **Exactness.**  A key is found exactly when a walk of at least one arc leads to it. -/
theorem reachable_iff (known : target ∈ g.keys) :
    g.reachable source target = true ↔ TransGen g.Arc source target := by
  rw [reachable, search_iff [source] [] nofun le_rfl]
  simp only [mem_singleton, exists_eq_left]
  exact ⟨walk_of_lists known,
    fun walk => TransGen.mono (fun _ _ (arc : g.Arc _ _) => arc.1) _ _ walk⟩

/-! ## Cyclic components -/

/-- The keys that a key reaches and that reach it. -/
def members (g : Digraph K) (key : K) : List K :=
  g.keys.filter fun other => g.reachable key other && g.reachable other key

/-- The graph with only the keys `kept`. -/
def restrict (g : Digraph K) (kept : List K) (distinct : kept.Nodup) : Digraph K where
  keys := kept
  next key := if key ∈ kept then (g.next key).filter (· ∈ kept) else []
  distinct := distinct
  inside _ outside := if_neg outside

theorem nodup_members (g : Digraph K) (key : K) : (g.members key).Nodup := g.distinct.filter _

/-- The loop over the keys.  A key that no component so far has and that lies on a cycle gives
a component of its own, with a cycle inside it; a component without one would end the whole
search. -/
def componentsFrom (g : Digraph K) : List K → List K → Option (List (List K × List K))
  | [], _ => some []
  | key :: rest, assigned =>
    if key ∈ assigned then componentsFrom g rest assigned
    else if 1 < (g.members key).length ∨ key ∈ g.next key then do
      let cycle ← (g.restrict (g.members key) (g.nodup_members key)).findCycle
      let others ← componentsFrom g rest (assigned ++ g.members key)
      return (g.members key, cycle) :: others
    else componentsFrom g rest assigned

def cyclicComponents (g : Digraph K) : Option (List (List K × List K)) :=
  componentsFrom g g.keys []

theorem mem_members (known : key ∈ g.keys) :
    other ∈ g.members key ↔ TransGen g.Arc key other ∧ TransGen g.Arc other key := by
  rw [members, mem_filter, Bool.and_eq_true, reachable_iff known]
  constructor
  · rintro ⟨isKey, there, back⟩
    exact ⟨(reachable_iff isKey).mp there, back⟩
  · rintro ⟨there, back⟩
    have isKey := target_of_walk there
    exact ⟨isKey, (reachable_iff isKey).mpr there, back⟩

theorem self_mem_members (cyclic : TransGen g.Arc key key) : key ∈ g.members key :=
  (mem_members (source_of_walk cyclic)).mpr ⟨cyclic, cyclic⟩

/-- The members of a component have the same members. -/
theorem members_eq (known : key ∈ g.keys) (among : other ∈ g.members key) :
    g.members other = g.members key := by
  rcases (mem_members known).mp among with ⟨there, back⟩
  apply filter_congr
  intro third isKey
  rw [Bool.eq_iff_iff, Bool.and_eq_true, Bool.and_eq_true, reachable_iff isKey,
    reachable_iff isKey, reachable_iff known, reachable_iff (target_of_walk there)]
  exact ⟨fun ⟨out, home⟩ => ⟨there.trans out, home.trans back⟩,
    fun ⟨out, home⟩ => ⟨back.trans out, home.trans there⟩⟩

/-- The test of the loop: more than one member, or an arc from the key to itself. -/
theorem cyclic_iff (known : key ∈ g.keys) :
    (1 < (g.members key).length ∨ key ∈ g.next key) ↔ TransGen g.Arc key key := by
  constructor
  · rintro (several | own)
    · rcases exists_mem_of_length_pos (Nat.lt_trans Nat.zero_lt_one several) with
        ⟨other, among⟩
      rcases (mem_members known).mp among with ⟨there, back⟩
      exact there.trans back
    · exact .single ⟨own, known⟩
  · intro cycle
    rcases TransGen.head'_iff.mp cycle with ⟨next, arc, back⟩
    by_cases same : next = key
    · exact .inr (same ▸ arc.1)
    · -- the key and the one after it are two members
      have back' : TransGen g.Arc next key := by
        rcases reflTransGen_iff_eq_or_transGen.mp back with equal | walk
        · exact absurd equal.symm same
        · exact walk
      have two : [key, next].Subperm (g.members key) := by
        apply List.Nodup.subperm (by simpa using Ne.symm same)
        intro other among
        rcases mem_pair.mp among with rfl | rfl
        · exact self_mem_members cycle
        · exact (mem_members known).mpr ⟨.single arc, back'⟩
      exact .inl two.length_le

/-- A walk between members stays among them. -/
theorem walk_restrict (cyclic : TransGen g.Arc key key) (walk : TransGen g.Arc a b)
    (ends : b ∈ g.members key) :
    a ∈ g.members key → TransGen (g.restrict (g.members key) (g.nodup_members key)).Arc a b := by
  have known := source_of_walk cyclic
  induction walk using TransGen.head_induction_on with
  | single arc =>
    intro starts
    exact .single ⟨by simp [restrict, starts, ends, arc.1], ends⟩
  | @head a next arc onward ih =>
    intro starts
    have among : next ∈ g.members key :=
      (mem_members known).mpr ⟨((mem_members known).mp starts).1.tail arc,
        onward.trans ((mem_members known).mp ends).2⟩
    exact .head ⟨by simp [restrict, starts, among, arc.1], among⟩ (ih among)

/-- The cycle of a component is always found. -/
theorem findCycle_members (cyclic : TransGen g.Arc key key) :
    ∃ cycle, (g.restrict (g.members key) (g.nodup_members key)).findCycle = some cycle := by
  apply Option.ne_none_iff_exists'.mp
  intro nothing
  have own := self_mem_members cyclic
  exact findCycle_eq_none.mp nothing key (walk_restrict cyclic cyclic own own)

/-- A strongly connected component that holds an arc, its members in the order of the keys. -/
structure CyclicComponent (g : Digraph K) (part : List K) : Prop where
  ordered : part.Sublist g.keys
  connected : ∀ a ∈ part, ∀ b ∈ part, ReflTransGen g.Arc a b
  maximal : ∀ a ∈ part, ∀ b ∈ g.keys, ReflTransGen g.Arc a b → ReflTransGen g.Arc b a → b ∈ part
  arc : ∃ a ∈ part, ∃ b ∈ part, g.Arc a b

theorem members_component (cyclic : TransGen g.Arc key key) :
    g.CyclicComponent (g.members key) := by
  have known := source_of_walk cyclic
  constructor
  · exact filter_sublist
  · intro a among b among'
    exact (((mem_members known).mp among).2.trans ((mem_members known).mp among').1).to_reflTransGen
  · intro a among b _ there back
    rcases (mem_members known).mp among with ⟨out, home⟩
    exact (mem_members known).mpr ⟨out.trans_left there, TransGen.trans_right back home⟩
  · rcases TransGen.head'_iff.mp cyclic with ⟨next, arc, back⟩
    exact ⟨key, self_mem_members cyclic, next,
      (mem_members known).mpr ⟨.single arc, TransGen.trans_right back cyclic⟩, arc⟩

theorem eq_filter_of_sublist {part keys : List K} (sub : part.Sublist keys)
    (distinct : keys.Nodup) : part = keys.filter (· ∈ part) := by
  induction sub with
  | slnil => rfl
  | @cons _ _ _ sub ih =>
    rcases nodup_cons.mp distinct with ⟨fresh, rest⟩
    rw [filter_cons_of_neg (by simpa using fun among => fresh (sub.subset among))]
    exact ih rest
  | @cons_cons _ _ key _ ih =>
    rcases nodup_cons.mp distinct with ⟨fresh, rest⟩
    rw [filter_cons_of_pos (by simp)]
    congr 1
    rw [ih rest]
    apply filter_congr
    intro other among
    have different : other ≠ key := fun same => fresh (same ▸ among)
    simp [different, ← ih rest]

/-- The component with an arc is the one of the key the arc leaves. -/
theorem CyclicComponent.eq_members {part : List K} (component : g.CyclicComponent part) :
    ∃ key ∈ g.keys, TransGen g.Arc key key ∧ part = g.members key := by
  rcases component.arc with ⟨a, among, b, among', arc⟩
  have cyclic : TransGen g.Arc a a := TransGen.head' arc (component.connected b among' a among)
  refine ⟨a, arc.source, cyclic, ?_⟩
  have same : ∀ other, other ∈ part ↔ other ∈ g.members a := by
    intro other
    rw [mem_members arc.source]
    constructor
    · intro inside
      exact ⟨TransGen.trans_left cyclic (component.connected a among other inside),
        TransGen.trans_right (component.connected other inside a among) cyclic⟩
    · rintro ⟨there, back⟩
      exact component.maximal a among other (target_of_walk there) there.to_reflTransGen
        back.to_reflTransGen
  calc part = g.keys.filter (· ∈ part) := eq_filter_of_sublist component.ordered g.distinct
    _ = g.keys.filter (· ∈ g.members a) := filter_congr fun other _ => by simp [same other]
    _ = g.members a := (eq_filter_of_sublist filter_sublist g.distinct).symm

/-- Entries with disjoint members, each with a closed walk inside its members. -/
structure Separate (g : Digraph K) (components : List (List K × List K)) : Prop where
  disjoint : components.Pairwise fun one two => one.1.Disjoint two.1
  closed : ∀ entry ∈ components,
    ClosedWalk (fun a b => g.Arc a b ∧ a ∈ entry.1 ∧ b ∈ entry.1) entry.2

/-- The components are exactly the strongly connected ones that hold an arc. -/
structure Partition (g : Digraph K) (components : List (List K × List K)) : Prop
    extends g.Separate components where
  parts : ∀ part, (∃ cycle, (part, cycle) ∈ components) ↔ g.CyclicComponent part

/-- What the loop still adds: the components of the keys ahead that none so far has. -/
structure Ahead (g : Digraph K) (rest assigned : List K) (components : List (List K × List K)) :
    Prop extends g.Separate components where
  parts : ∀ part, (∃ cycle, (part, cycle) ∈ components) ↔
    ∃ key ∈ rest, key ∉ assigned ∧ TransGen g.Arc key key ∧ part = g.members key

/-- A key that gives no component of its own changes nothing. -/
theorem Ahead.pass (ahead : g.Ahead rest assigned components)
    (no : ¬ (key ∉ assigned ∧ TransGen g.Arc key key)) :
    g.Ahead (key :: rest) assigned components := by
  refine ⟨ahead.toSeparate, fun part => (ahead.parts part).trans ?_⟩
  constructor
  · rintro ⟨other, among, new⟩
    exact ⟨other, mem_cons_of_mem _ among, new⟩
  · rintro ⟨other, among, new⟩
    rcases mem_cons.mp among with rfl | among
    · exact absurd ⟨new.1, new.2.1⟩ no
    · exact ⟨other, among, new⟩

/-- The cycle found in the restricted graph runs along arcs between the members. -/
theorem closedWalk_of_restrict
    (found : (g.restrict (g.members key) (g.nodup_members key)).findCycle = some cycle) :
    ClosedWalk (fun a b => g.Arc a b ∧ a ∈ g.members key ∧ b ∈ g.members key) cycle := by
  rcases findCycle_closed found with ⟨start, between, same, chain⟩
  refine ⟨start, between, same, chain.imp ?_⟩
  rintro a b ⟨next, into⟩
  have leaves : a ∈ g.members key := Arc.source ⟨next, into⟩
  simp only [restrict, if_pos leaves, mem_filter] at next
  exact ⟨⟨next.1, mem_of_mem_filter into⟩, leaves, into⟩

/-- A key on a cycle that no component so far has puts its members in front. -/
theorem Ahead.add (ahead : g.Ahead rest (assigned ++ g.members key) others)
    (known : ∀ other ∈ rest, other ∈ g.keys) (has : key ∉ assigned)
    (cyclic : TransGen g.Arc key key)
    (found : (g.restrict (g.members key) (g.nodup_members key)).findCycle = some cycle) :
    g.Ahead (key :: rest) assigned ((g.members key, cycle) :: others) := by
  have keyKnown := source_of_walk cyclic
  refine ⟨⟨List.Pairwise.cons ?_ ahead.disjoint, ?_⟩, fun part => ⟨?_, ?_⟩⟩
  · intro entry listed other inside elsewhere
    rcases (ahead.parts entry.1).mp ⟨entry.2, listed⟩ with ⟨third, later, new, around, same⟩
    -- a shared key would put the later component among the members of this one
    apply new
    apply mem_append_right
    rw [same] at elsewhere
    rw [← members_eq keyKnown inside, members_eq (known third later) elsewhere]
    exact self_mem_members around
  · intro entry listed
    rcases mem_cons.mp listed with rfl | listed
    · exact closedWalk_of_restrict found
    · exact ahead.closed entry listed
  · rintro ⟨walk, among⟩
    rcases mem_cons.mp among with same | among
    · cases same
      exact ⟨key, mem_cons_self, has, cyclic, rfl⟩
    · rcases (ahead.parts part).mp ⟨walk, among⟩ with ⟨other, later, new, around, rfl⟩
      exact ⟨other, mem_cons_of_mem _ later, fun old => new (mem_append_left _ old), around, rfl⟩
  · rintro ⟨other, among, new, around, rfl⟩
    by_cases inside : other ∈ g.members key
    · exact ⟨cycle, by rw [members_eq keyKnown inside]; exact mem_cons_self⟩
    · rcases mem_cons.mp among with rfl | later
      · exact absurd (self_mem_members cyclic) inside
      · rcases (ahead.parts (g.members other)).mpr
          ⟨other, later, by simp [new, inside], around, rfl⟩ with ⟨walk, listed⟩
        exact ⟨walk, mem_cons_of_mem _ listed⟩

/-- The loop always ends, and adds what is ahead of it. -/
theorem componentsFrom_ahead :
    ∀ rest assigned : List K, (∀ key ∈ rest, key ∈ g.keys) →
      ∃ components, componentsFrom g rest assigned = some components ∧
        g.Ahead rest assigned components := by
  intro rest
  induction rest with
  | nil =>
    intro assigned _
    exact ⟨[], rfl, ⟨List.Pairwise.nil, nofun⟩, by simp⟩
  | cons key rest ih =>
    intro assigned known
    have keyKnown := known key mem_cons_self
    have restKnown (other : K) (among : other ∈ rest) := known other (mem_cons_of_mem _ among)
    rcases ih assigned restKnown with ⟨components, made, ahead⟩
    rw [componentsFrom]
    by_cases has : key ∈ assigned
    · rw [if_pos has]
      exact ⟨components, made, ahead.pass fun new => new.1 has⟩
    by_cases cyclic : TransGen g.Arc key key
    · rw [if_neg has, if_pos ((cyclic_iff keyKnown).mpr cyclic)]
      rcases findCycle_members cyclic with ⟨cycle, found⟩
      rcases ih (assigned ++ g.members key) restKnown with ⟨others, made', ahead'⟩
      exact ⟨(g.members key, cycle) :: others, by simp [found, made'],
        ahead'.add restKnown has cyclic found⟩
    · rw [if_neg has, if_neg (fun test => cyclic ((cyclic_iff keyKnown).mp test))]
      exact ⟨components, made, ahead.pass fun new => cyclic new.2⟩

/-- **Exactness.**  The search always ends, and its components are exactly the strongly
connected components that hold an arc. -/
theorem cyclicComponents_spec (g : Digraph K) :
    ∃ components, g.cyclicComponents = some components ∧ g.Partition components := by
  rcases componentsFrom_ahead g.keys [] (fun _ known => known) with ⟨components, made, ahead⟩
  refine ⟨components, made, ahead.toSeparate, fun part => (ahead.parts part).trans ?_⟩
  constructor
  · rintro ⟨key, _, _, cyclic, rfl⟩
    exact members_component cyclic
  · intro component
    rcases component.eq_members with ⟨key, known, cyclic, same⟩
    exact ⟨key, known, not_mem_nil, cyclic, same⟩

/-- A key lies in a component exactly when it lies on a cycle. -/
theorem Partition.mem_iff (partition : g.Partition components) :
    (∃ entry ∈ components, key ∈ entry.1) ↔ TransGen g.Arc key key := by
  constructor
  · rintro ⟨entry, listed, among⟩
    rcases ((partition.parts entry.1).mp ⟨entry.2, listed⟩).eq_members with
      ⟨start, known, _, same⟩
    rw [same, mem_members known] at among
    exact among.2.trans among.1
  · intro cyclic
    rcases (partition.parts _).mpr (members_component cyclic) with ⟨cycle, listed⟩
    exact ⟨(g.members key, cycle), listed, self_mem_members cyclic⟩

end Digraph

end NeigeCalm.Library
