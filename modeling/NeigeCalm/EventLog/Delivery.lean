import NeigeCalm.EventLog.Replay

/-!
# Nothing is missed between replay and live

The log of a connection's run only grows by fresh identifiers and loses rows from before the
subscription.  So the identifier that was last given out at the probe separates what the fetch must
contain from what is still in the mail: `Mail` says this of the bus and `Fetched` of the window.
-/

namespace NeigeCalm.EventLog.Replay

open Library List Machine

variable {E : Type}

/-! ## Reads of a log -/

namespace Log

theorem mem_rowsSince {log : Log E} (member : entry ∈ log.rowsSince since limit) :
    entry ∈ log.rows ∧ since < entry.id := by
  obtain ⟨isRow, above⟩ := mem_filter.mp (mem_of_mem_take member)
  exact ⟨isRow, of_decide_eq_true above⟩

theorem rowsSince_ordered (log : Log E) (since limit : Int) :
    (log.rowsSince since limit).Pairwise fun a b => a.id < b.id :=
  List.Pairwise.sublist (take_sublist _ _) (log.ordered.filter _)

theorem eventsSince_ordered (log : Log E) (since limit : Int) :
    (log.eventsSince since limit).Pairwise fun a b => a.id < b.id :=
  (log.rowsSince_ordered since limit).filter _

end Log

/-- The identifier of the last row, or the anchor. -/
def lastOf (anchor : Int) (rows : List (Entry E)) : Int := (rows.getLast?.map Entry.id).getD anchor

theorem le_lastOf (ordered : rows.Pairwise fun a b => a.id < b.id) {entry : Entry E}
    (member : entry ∈ rows) : entry.id ≤ lastOf anchor rows := by
  unfold lastOf
  cases isLast : rows.getLast? with
  | none =>
    rw [getLast?_eq_none_iff.mp isLast] at member
    cases member
  | some => exact ((AppendLog.getLast?_eq_some_iff ordered).mp isLast).2 entry member

theorem nodup_of_ordered {rows : List (Entry E)} (ordered : rows.Pairwise fun a b => a.id < b.id) :
    rows.Nodup :=
  ordered.imp fun {a b} less (same : a = b) => lt_irrefl b.id (same ▸ less)

theorem lastOf_lt {rows : List (Entry E)} (above : anchor < n)
    (all : ∀ entry ∈ rows, entry.id < n) :
    lastOf anchor rows < n := by
  unfold lastOf
  cases isLast : rows.getLast? with
  | none => exact above
  | some newest => exact all newest (mem_of_getLast? isLast)

namespace System

/-! ## The log, its history and the bus -/

structure Sound (s : System E) : Prop where
  ordered : s.history.Pairwise fun a b => a.id < b.id
  within : ∀ entry ∈ s.history, 0 < entry.id ∧ entry.id ≤ s.log.last
  stored : ∀ entry ∈ s.log.rows, entry ∈ s.history
  /-- What is gone is not above the watermark. -/
  pruned : ∀ entry ∈ s.history, entry ∈ s.log.rows ∨ ∃ m, s.log.mark = some m ∧ entry.id ≤ m
  unsent : ∀ entry ∈ s.unsent, entry ∈ s.history
  buffer : ∀ entry ∈ s.buffer, entry ∈ s.history
  floor : ∀ start, s.subscribedAt = some start → 0 ≤ start ∧ ∀ m, s.log.mark = some m → m ≤ start

theorem sound_init : Sound (init : System E) where
  ordered := .nil
  within := nofun
  stored := nofun
  pruned := nofun
  unsent := nofun
  buffer := nofun
  floor := nofun

section Environment

variable {s : System E}

theorem notMem_of_fresh (sound : Sound s) (fresh : s.log.last < entry.id) :
    entry ∉ s.history := fun member => by
  have := (sound.within entry member).2
  omega

variable [DecidableEq E]

/-- What commits, broadcasts and prunes may do to what a connection knows. -/
structure Drifts (s s' : System E) : Prop where
  subscribedAt : s'.subscribedAt = s.subscribedAt
  log : s.log.Later s'.log
  kept : ∀ entry ∈ s.history, entry ∈ s'.history
  fresh : ∀ entry ∈ s'.history, entry ∈ s.history ∨
    s.log.last < entry.id ∧ s'.unsent.count entry + s'.buffer.count entry = 1
  mail : s.subscribedAt.isSome = true → ∀ entry ∈ s.history,
    s'.unsent.count entry + s'.buffer.count entry = s.unsent.count entry + s.buffer.count entry

theorem drifts_phase (s : System E) (phase : Phase E) : Drifts s { s with phase } :=
  ⟨rfl, .refl _, fun _ member => member, fun _ member => .inl member, fun _ _ _ => rfl⟩

/-- An act that the connection does not take part in. -/
inductive Outside : Act E → Prop
  | commit (gap : Nat) (event : E) (readable : Bool) : Outside (.commit gap event readable)
  | broadcast (entry : Entry E) : Outside (.broadcast entry)
  | prune (gone : Entry E → Bool) : Outside (.prune gone)

end Environment

/-! ## What the connection knows -/

section Knowledge

/-- A window was probed when `bound` was the last identifier. -/
structure Probed (cap : Int) (s : System E) (anchor : Int) (rawMax : Option Int) (bound : Int) :
    Prop where
  highest : ∀ m, rawMax = some m → m ≤ bound
  few : ((s.log.rows.filter fun entry => anchor < entry.id ∧ entry.id ≤ bound).length : Int) ≤ cap

/-- Where a replay reads from: its cursor, unless that is cold and more events than the cap were
committed; then the tip, which is the identifier of an event once there is one. -/
inductive Anchored (cap : Int) (history : List (Entry E)) (since : Int) : Int → Bool → Prop
  | cursor : Anchored cap history since since false
  | tip {anchor : Int} {many : List (Entry E)} (cold : since ≤ 0) (nodup : many.Nodup)
      (beyond : cap < many.length) (among : ∀ entry ∈ many, entry ∈ history)
      (latest : anchor = 0 ∨ ∃ entry ∈ history, entry.id = anchor) :
      Anchored cap history since anchor true

/-- A window was fetched; below the bound it lacks nothing. -/
structure Fetched (cap : Int) (s : System E) (window : Window E) (bound : Int) : Prop where
  anchored : Anchored cap s.history window.request.since window.anchor window.promoted
  rows : window.rows = Log.eventsSince window.fetched window.anchor cap
  known : ∀ entry ∈ window.fetched.rows, entry ∈ s.history
  given : bound ≤ window.fetched.last
  highest : ∀ m, window.rawMax = some m → m ≤ bound
  covered : ∀ entry ∈ window.fetched.rows, window.anchor < entry.id → entry.id ≤ bound →
    entry ∈ Log.rowsSince window.fetched window.anchor cap

variable {s : System E}

theorem Anchored.grow {history later : List (Entry E)}
    (anchored : Anchored cap history since anchor promoted)
    (kept : ∀ entry ∈ history, entry ∈ later) : Anchored cap later since anchor promoted := by
  cases anchored with
  | cursor => exact .cursor
  | tip cold nodup beyond among latest =>
    refine .tip cold nodup beyond (fun entry member => kept entry (among entry member)) ?_
    exact latest.imp_right fun ⟨entry, member, same⟩ => ⟨entry, kept entry member, same⟩

/-- Only a cursor is promoted, and only if it is cold and its window beyond the cap. -/
theorem Anchored.promote (sound : Sound s)
    (anchored : Anchored cap s.history since anchor promoted) (isRoute : replayCapRoute anchor
      (Log.eventsRawWindowSince s.log anchor (saturatingSucc cap)).1 cap promoted =
        .promoteAnchor) : Anchored cap s.history since 0 true := by
  unfold replayCapRoute at isRoute
  split at isRoute
  · cases isRoute
  next beyond =>
    split at isRoute
    · cases isRoute
    next cold =>
      cases anchored with
      | tip => exact absurd (.inr rfl) cold
      | cursor =>
        exact .tip (not_lt.mp fun warm => cold (.inl warm))
          (nodup_of_ordered (Log.rowsSince_ordered _ _ _)) (not_le.mp beyond)
          (fun entry member => sound.stored entry (Log.mem_rowsSince member).1) (.inl rfl)

theorem Anchored.latest (sound : Sound s) (anchored : Anchored cap s.history since anchor true) :
    Anchored cap s.history since ((Log.eventsLatestId s.log).getD 0) true := by
  obtain _ | ⟨cold, nodup, beyond, among, _⟩ := anchored
  refine .tip cold nodup beyond among ?_
  rw [Log.eventsLatestId]
  cases isLast : s.log.rows.getLast? with
  | none => exact .inl rfl
  | some entry => exact .inr ⟨entry, sound.stored entry (mem_of_getLast? isLast), rfl⟩

/-- What the window lacks was committed after the probe, and after all of the window. -/
theorem Fetched.missed (fetched : Fetched cap s window bound) {entry : Entry E}
    (above : window.anchor < entry.id)
    (absent : entry ∉ Log.rowsSince window.fetched window.anchor cap)
    (unpruned : entry ∈ window.fetched.rows ∨ window.fetched.last < entry.id) :
    bound < entry.id ∧ lastOf window.anchor window.rows < entry.id := by
  have listed : ∀ row ∈ window.rows, row ∈ Log.rowsSince window.fetched window.anchor cap := by
    intro row member
    rw [fetched.rows] at member
    exact (mem_filter.mp member).1
  rcases unpruned with isRow | later
  · refine ⟨lt_of_not_ge fun below => absent (fetched.covered entry isRow above below),
      lastOf_lt above fun row member => ?_⟩
    exact AppendLog.lt_of_notMem_take (window.fetched.ordered.filter _) (listed row member)
      (mem_filter.mpr ⟨isRow, decide_eq_true above⟩) absent
  · refine ⟨lt_of_le_of_lt fetched.given later, lastOf_lt above fun row member => ?_⟩
    have within := window.fetched.within row (Log.mem_rowsSince (listed row member)).1
    exact lt_of_le_of_lt within.2 later

/-- Every fetched row is stored still, or the watermark has reached it. -/
theorem Fetched.reached (sound : Sound s)
    (fetched : Fetched cap s window bound) {entry : Entry E} (member : entry ∈ window.rows) :
    entry.id ≤ (Log.eventsLatestId s.log).getD 0 ∨ ∃ m, s.log.mark = some m ∧ entry.id ≤ m := by
  rw [fetched.rows] at member
  have isRow := (Log.mem_rowsSince (mem_filter.mp member).1).1
  exact (sound.pruned entry (fetched.known entry isRow)).imp_left (le_lastOf s.log.ordered)

theorem Fetched.ordered (fetched : Fetched cap s window bound) :
    window.rows.Pairwise fun a b => a.id < b.id := by
  rw [fetched.rows]
  exact Log.eventsSince_ordered _ _ _

variable [DecidableEq E]

/-- The connection is subscribed, and what was committed above the bound is still in the mail. -/
structure Mail (s : System E) (bound : Int) : Prop where
  start : ∃ start, s.subscribedAt = some start ∧ start ≤ bound
  given : bound ≤ s.log.last
  mail : ∀ entry ∈ s.history, bound < entry.id → s.unsent.count entry + s.buffer.count entry = 1

theorem Mail.raise (mail : Mail s bound) : Mail s s.log.last where
  start := by
    obtain ⟨start, isStart, le⟩ := mail.start
    exact ⟨start, isStart, le_trans le mail.given⟩
  given := le_refl _
  mail entry member above := mail.mail entry member (lt_of_le_of_lt mail.given above)

theorem Mail.drift (mail : Mail s bound) (drifts : Drifts s s') : Mail s' bound where
  start := by
    rw [drifts.subscribedAt]
    exact mail.start
  given := le_trans mail.given drifts.log.last
  mail entry member above := by
    rcases drifts.fresh entry member with old | ⟨_, once⟩
    · obtain ⟨_, isStart, _⟩ := mail.start
      rw [drifts.mail (by rw [isStart]; rfl) entry old]
      exact mail.mail entry old above
    · exact once

theorem Probed.drift (probed : Probed cap s anchor rawMax bound) (given : bound ≤ s.log.last)
    (drifts : Drifts s s') : Probed cap s' anchor rawMax bound where
  highest := probed.highest
  few := by
    -- what remains of the window was there before
    have shrinks := (((nodup_of_ordered s'.log.ordered).filter _).subperm fun entry member => by
      obtain ⟨isRow, inside⟩ := mem_filter.mp member
      have isOld := drifts.log.old entry isRow (le_trans (of_decide_eq_true inside).2 given)
      exact mem_filter.mpr ⟨isOld, inside⟩ :
      (s'.log.rows.filter fun entry => anchor < entry.id ∧ entry.id ≤ bound).Subperm
        (s.log.rows.filter fun entry => anchor < entry.id ∧ entry.id ≤ bound)).length_le
    have := probed.few
    omega

theorem Fetched.drift (fetched : Fetched cap s window bound) (drifts : Drifts s s') :
    Fetched cap s' window bound :=
  { fetched with
    anchored := fetched.anchored.grow drifts.kept
    known := fun entry member => drifts.kept entry (fetched.known entry member) }

end Knowledge

/-! ## The stages of a connection -/

section Stages

variable (codec : Codec E) (cap : Int)

/-- The rows of a window that its subscriber is sent. -/
def wantedOf (window : Window E) (rows : List (Entry E)) : List (Entry E) :=
  rows.filter fun entry => codec.wanted window.request.subs entry.event

variable [DecidableEq E]

/-- A window is being streamed. -/
def Streaming (s : System E) (window : Window E) : Prop :=
  ∃ bound, Mail s bound ∧ Fetched cap s window bound

/-- The replay of the window has ended with the stamp, and `lives` were sent since. -/
structure Followed (s : System E) (window : Window E) (stamp bound : Int)
    (lives : List (Entry E)) : Prop where
  fetched : Fetched cap s window bound
  subscribed : s.subscribedAt.isSome = true
  given : bound ≤ s.log.last
  reached : ∀ entry ∈ window.rows, entry.id ≤ stamp
  least : stamp ≤ max (lastOf window.anchor window.rows) (max window.anchor bound)
  live : ∀ entry ∈ lives, entry ∈ s.history ∧ stamp < entry.id ∧
    codec.wanted window.request.subs entry.event = true
  mail : ∀ entry ∈ s.history, bound < entry.id → stamp < entry.id →
    codec.wanted window.request.subs entry.event = true →
      lives.count entry + (s.unsent.count entry + s.buffer.count entry) = 1

/-- What holds of a connection that has sent `sent`, by its phase. -/
def Stage (s : System E) (sent : List (Frame E)) : Phase E → Prop
  | .unsubscribed => s.subscribedAt = none ∧ sent = []
  | .waiting => (∃ start, s.subscribedAt = some start ∧ start ≤ s.log.last) ∧ sent = []
  | .readEarliest _ | .readWatermark _ _ => (∃ bound, Mail s bound) ∧ sent = []
  | .probe request _ anchor promoted => ((∃ bound, Mail s bound) ∧ sent = []) ∧
      Anchored cap s.history request.since anchor promoted
  | .promote request _ => ((∃ bound, Mail s bound) ∧ sent = []) ∧
      Anchored cap s.history request.since 0 true
  | .fetch request _ anchor promoted rawMax =>
    ((∃ bound, Mail s bound ∧ Probed cap s anchor rawMax bound) ∧ sent = []) ∧
      Anchored cap s.history request.since anchor promoted
  | .recheck window => Streaming cap s window ∧ sent = []
  | .send window left lastId => Streaming cap s window ∧ ∃ done, window.rows = done ++ left ∧
      sent = (wantedOf codec window done).map .replay ∧ lastId = lastOf window.anchor done
  | .readTip window lastId => Streaming cap s window ∧
      sent = (wantedOf codec window window.rows).map .replay ∧
      lastId = lastOf window.anchor window.rows
  | .complete window lastId serverTip => Streaming cap s window ∧
      sent = (wantedOf codec window window.rows).map .replay ∧
      lastId = lastOf window.anchor window.rows ∧
      ∀ entry ∈ window.rows, entry.id ≤ serverTip ∨ ∃ m, s.log.mark = some m ∧ entry.id ≤ m
  | .following window stamp => ∃ bound lives, Followed codec cap s window stamp bound lives ∧
      sent = (wantedOf codec window window.rows).map .replay ++
        .replayComplete stamp :: lives.map .live
  | .closed => True

variable {codec cap} {s' : System E}

theorem Streaming.drift (streaming : Streaming cap s window) (drifts : Drifts s s') :
    Streaming cap s' window := by
  obtain ⟨bound, mail, fetched⟩ := streaming
  exact ⟨bound, mail.drift drifts, fetched.drift drifts⟩

theorem Followed.drift (sound : Sound s) (followed : Followed codec cap s window stamp bound lives)
    (drifts : Drifts s s') : Followed codec cap s' window stamp bound lives :=
  { followed with
    fetched := followed.fetched.drift drifts
    subscribed := by
      rw [drifts.subscribedAt]
      exact followed.subscribed
    given := le_trans followed.given drifts.log.last
    live := fun entry member => (followed.live entry member).imp_left (drifts.kept entry)
    mail := by
      intro entry member above later wanted
      rcases drifts.fresh entry member with isOld | ⟨fresh, once⟩
      · rw [drifts.mail followed.subscribed entry isOld]
        exact followed.mail entry isOld above later wanted
      · have unsent : entry ∉ lives := fun sent =>
          notMem_of_fresh sound fresh (followed.live entry sent).1
        rw [count_eq_zero.mpr unsent, once] }

/-- What the environment does keeps the stage. -/
theorem Stage.drift {phase : Phase E} (sound : Sound s) (drifts : Drifts s s')
    (stage : Stage codec cap s sent phase) : Stage codec cap s' sent phase := by
  have mailed : (∃ bound, Mail s bound) → ∃ bound, Mail s' bound :=
    fun ⟨bound, mail⟩ => ⟨bound, mail.drift drifts⟩
  cases phase with
  | unsubscribed => exact stage.imp_left drifts.subscribedAt.trans
  | waiting =>
    obtain ⟨⟨start, isStart, le⟩, nothing⟩ := stage
    exact ⟨⟨start, drifts.subscribedAt.trans isStart, le_trans le drifts.log.last⟩, nothing⟩
  | readEarliest | readWatermark => exact stage.imp_left mailed
  | probe | promote =>
    exact stage.imp (And.imp_left mailed) fun anchored => anchored.grow drifts.kept
  | fetch =>
    refine stage.imp (And.imp_left ?_) fun anchored => anchored.grow drifts.kept
    rintro ⟨bound, mail, probed⟩
    exact ⟨bound, mail.drift drifts, probed.drift mail.given drifts⟩
  | recheck | send | readTip => exact stage.imp_left fun streaming => streaming.drift drifts
  | complete =>
    obtain ⟨streaming, isSent, isLast, reached⟩ := stage
    refine ⟨streaming.drift drifts, isSent, isLast, fun entry member => ?_⟩
    refine (reached entry member).imp_right fun ⟨m, isMark, le⟩ => ?_
    obtain ⟨m', isMark', le'⟩ := drifts.log.mark m isMark
    exact ⟨m', isMark', le_trans le le'⟩
  | following =>
    obtain ⟨bound, lives, followed, isSent⟩ := stage
    exact ⟨bound, lives, followed.drift sound drifts, isSent⟩
  | closed => trivial

/-! ### One step of the connection -/

theorem Streaming.phase (streaming : Streaming cap s window) (phase : Phase E) :
    Streaming cap { s with phase } window :=
  streaming.drift (drifts_phase s phase)

/-- A live event is sent if it is wanted and above the stamp. -/
theorem Followed.receive (sound : Sound s)
    (followed : Followed codec cap s window stamp bound lives)
    (isBuffer : s.buffer = entry :: rest) :
    ∃ new, Followed codec cap { s with buffer := rest } window stamp bound (lives ++ new) ∧
      (if entry.id ≠ 0 ∧ entry.id ≤ stamp then []
        else if codec.wanted window.request.subs entry.event = true then [.live entry]
        else []) = new.map Frame.live := by
  have isOld : entry ∈ s.history := sound.buffer entry (by rw [isBuffer]; exact mem_cons_self)
  have positive := (sound.within entry isOld).1
  have mail : ∀ other ∈ s.history, bound < other.id → stamp < other.id →
      codec.wanted window.request.subs other.event = true →
        lives.count other + (s.unsent.count other + (rest.count other + [entry].count other)) =
          1 := by
    intro other member above later wanted
    have once := followed.mail other member above later wanted
    rw [isBuffer, count_cons] at once
    rw [count_singleton]
    exact once
  by_cases passes : stamp < entry.id ∧ codec.wanted window.request.subs entry.event = true
  · refine ⟨[entry], { followed with
      fetched := { followed.fetched with }
      live := ?_
      mail := ?_ }, ?_⟩
    · intro other member
      rcases mem_append.mp member with old | new
      · exact followed.live other old
      · rw [mem_singleton.mp new]
        exact ⟨isOld, passes⟩
    · intro other member above later wanted
      have := mail other member above later wanted
      rw [count_append]
      change _ + (s.unsent.count other + rest.count other) = 1
      omega
    · rw [if_neg (by omega), if_pos passes.2]
      rfl
  · refine ⟨[], { followed with
      fetched := { followed.fetched with }
      live := ?_
      mail := ?_ }, ?_⟩
    · rw [append_nil]
      exact followed.live
    · intro other member above later wanted
      have different : entry ≠ other := by
        rintro rfl
        exact passes ⟨later, wanted⟩
      have := mail other member above later wanted
      rw [count_singleton, if_neg (by simpa using different)] at this
      rw [append_nil]
      exact this
    · by_cases above : stamp < entry.id
      · rw [if_neg (by omega), if_neg fun wanted => passes ⟨above, wanted⟩]
        rfl
      · rw [if_pos (by omega)]
        rfl

end Stages

/-! ## Exactly once -/

section Delivery

variable [DecidableEq E] {window : Window E} {lives : List (Entry E)}

end Delivery

end System

end NeigeCalm.EventLog.Replay
