import Mathlib.Logic.Relation

/-!
# Programs over a store that others change

A program reads a store of type `S` on which others act between its reads.  The schedule says what
they do before each read outside a lock, so that every interleaving is some schedule; under a lock
the store stands still.  What the program writes goes to a log.  `Triple` is partial correctness
with a condition on the log that also holds when the program fails.
-/

namespace NeigeCalm.Library

namespace Interleaving

variable {S A L ε α β : Type}

structure World (S A L : Type) where
  store : S
  /-- What others do before each of the next reads. -/
  schedule : List (List A)
  log : List L

/-- A failed program leaves the world as it is then. -/
abbrev Program (ε S A L α : Type) := ExceptT ε (StateM (World S A L)) α

/-- The result and the world a program ends with. -/
def Program.exec (m : Program ε S A L α) (w : World S A L) : Except ε α × World S A L :=
  StateT.run (ExceptT.run m) w

/-- Others act. -/
def World.turn (act : S → A → S) (w : World S A L) : World S A L :=
  match w.schedule with
  | [] => w
  | actions :: rest => { w with store := actions.foldl act w.store, schedule := rest }

def await (act : S → A → S) : Program ε S A L PUnit := modify (World.turn act)

/-- A read while nobody else acts. -/
def locked (read : S → α) : Program ε S A L α := do return read (← get).store

/-- A read of a store that others acted on since the last read. -/
def outside (act : S → A → S) (read : S → α) : Program ε S A L α := do
  await act
  locked read

/-- A write under a lock, with what it logs. -/
def write (change : S → S × L) : Program ε S A L PUnit :=
  modify fun w => { w with store := (change w.store).1, log := w.log ++ [(change w.store).2] }

def orFail : Except ε α → Program ε S A L α
  | .ok a => pure a
  | .error e => throw e

/-- The store after some actions. -/
abbrev Acts (act : S → A → S) : S → S → Prop :=
  Relation.ReflTransGen fun before after => ∃ action, after = act before action

theorem acts_foldl (act : S → A → S) (actions : List A) (s : S) :
    Acts act s (actions.foldl act s) := by
  induction actions generalizing s with
  | nil => exact .refl
  | cons action _ ih => exact .head ⟨action, rfl⟩ (ih (act s action))

theorem World.turn_acts (act : S → A → S) (w : World S A L) :
    Acts act w.store (w.turn act).store := by
  rw [turn]
  split
  next => exact .refl
  next actions _ _ => exact acts_foldl act actions w.store

theorem World.turn_log (act : S → A → S) (w : World S A L) : (w.turn act).log = w.log := by
  rw [turn]
  split <;> rfl

/-! ## Rules -/

/-- From a store with `pre` the program logs only what is `good`, and ends with `post` unless it
fails. -/
def Triple (good : L → Prop) (pre : S → Prop) (m : Program ε S A L α) (post : α → S → Prop) :
    Prop :=
  ∀ w : World S A L, (∀ entry ∈ w.log, good entry) → pre w.store →
    (∀ entry ∈ (m.exec w).2.log, good entry) ∧ ∀ a, (m.exec w).1 = .ok a → post a (m.exec w).2.store

theorem Triple.pure (holds : ∀ s, pre s → post a s) :
    Triple good pre (pure a : Program ε S A L α) post := by
  intro w logged before
  refine ⟨logged, fun result isResult => ?_⟩
  cases isResult
  exact holds w.store before

theorem Triple.throw : Triple good pre (throw e : Program ε S A L α) post := by
  intro w logged _
  exact ⟨logged, nofun⟩

theorem Triple.bind {next : α → Program ε S A L β} {mid : α → S → Prop} {post : β → S → Prop}
    (first : Triple good pre m mid) (rest : ∀ a, Triple good (mid a) (next a) post) :
    Triple good pre (m >>= next) post := by
  intro w logged before
  obtain ⟨logged, middle⟩ := first w logged before
  have unfolds : (m >>= next).exec w =
      match m.exec w with
      | (.ok a, w) => (next a).exec w
      | (.error e, w) => (.error e, w) := by
    change (match (m.exec w).1 with
      | .ok a => (next a).exec
      | .error e => fun w => (.error e, w)) (m.exec w).2 = _
    rcases m.exec w with ⟨_ | _, _⟩ <;> rfl
  rw [unfolds]
  revert logged middle
  rcases m.exec w with ⟨_ | a, w⟩
  · intro logged _
    exact ⟨logged, nofun⟩
  · intro logged middle
    exact rest a w logged (middle a rfl)

theorem Triple.mono {mid post : α → S → Prop} (first : Triple good pre m mid)
    (weaker : ∀ a s, mid a s → post a s) : Triple good pre m post := by
  intro w logged before
  obtain ⟨logged, middle⟩ := first w logged before
  exact ⟨logged, fun a isResult => weaker a _ (middle a isResult)⟩

theorem Triple.weaken {pre' : S → Prop} (weaker : ∀ s, pre s → pre' s)
    (rest : Triple good pre' m post) : Triple good pre m post :=
  fun w logged before => rest w logged (weaker w.store before)

/-- A fact that the precondition implies may be used. -/
theorem Triple.assume {fact : Prop} (implied : ∀ s, pre s → fact)
    (rest : fact → Triple good pre m post) : Triple good pre m post :=
  fun w logged before => rest (implied w.store before) w logged before

theorem Triple.orFail (holds : ∀ a s, result = .ok a → pre s → post a s) :
    Triple good pre (orFail result : Program ε S A L α) post := by
  cases result with
  | error => exact .throw
  | ok a => exact .pure fun s before => holds a s rfl before

theorem Triple.locked {read : S → α} (holds : ∀ s, pre s → post (read s) s) :
    Triple good pre (locked read : Program ε S A L α) post := by
  intro w logged before
  refine ⟨logged, fun result isResult => ?_⟩
  cases isResult
  exact holds w.store before

theorem Triple.await {post : PUnit → S → Prop}
    (holds : ∀ s s', pre s → Acts act s s' → post ⟨⟩ s') :
    Triple good pre (await act : Program ε S A L PUnit) post := by
  intro w logged before
  have same : ((Interleaving.await act : Program ε S A L PUnit).exec w).2 = w.turn act := rfl
  rw [same, World.turn_log]
  exact ⟨logged, fun _ _ => holds w.store _ before (w.turn_acts act)⟩

/-- Others may act before the read. -/
theorem Triple.outside {read : S → α} (holds : ∀ s s', pre s → Acts act s s' → post (read s') s') :
    Triple good pre (outside act read : Program ε S A L α) post := by
  have waited : Triple good pre (Interleaving.await act : Program ε S A L PUnit)
      fun _ s => post (read s) s :=
    .await holds
  exact waited.bind fun _ => .locked fun _ after => after

theorem Triple.write {change : S → S × L} {post : PUnit → S → Prop}
    (holds : ∀ s, pre s → good (change s).2 ∧ post ⟨⟩ (change s).1) :
    Triple good pre (write change : Program ε S A L PUnit) post := by
  intro w logged before
  obtain ⟨isGood, after⟩ := holds w.store before
  refine ⟨fun entry among => ?_, fun _ _ => after⟩
  rcases List.mem_append.mp among with old | new
  · exact logged entry old
  · exact List.mem_singleton.mp new ▸ isGood

end Interleaving

end NeigeCalm.Library
