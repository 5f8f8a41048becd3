import Mathlib.Data.List.Basic
import Mathlib.Logic.Function.Iterate

/-!
# Resizing a terminal

The screen a renderer keeps: a grid of cells, a cursor and the lines that scrolled off the top.
A resize cuts or pads every row, then adds blank rows at the bottom, or gives up one row at a time:
an unused row below the cursor if there is one, otherwise the top row, which goes into scrollback.

The grid after a resize is a window on the rows before it (`resizeTo_eq_window`), and every result
below is read off the window.
-/

namespace NeigeCalm.Terminal

open List

inductive Color where
  | default
  | indexed (i : UInt8)
  | rgb (r g b : UInt8)
deriving DecidableEq

structure SgrState where
  fg : Color := .default
  bg : Color := .default
  bold : Bool := false
  dim : Bool := false
  italic : Bool := false
  underline : Bool := false
  reverse : Bool := false
  hidden : Bool := false
  strikethrough : Bool := false
deriving DecidableEq

/-- The defaults are the blank cell. -/
structure Cell where
  ch : Char := ' '
  sgr : SgrState := {}
deriving DecidableEq

def Cell.isBlank (cell : Cell) : Bool := cell.ch == ' ' && cell.sgr == {}

abbrev Row := List Cell

def Row.isBlank (row : Row) : Bool := row.all Cell.isBlank

def blankRow (cols : Nat) : Row := replicate cols {}

/-- `Vec::resize` with the blank cell. -/
def Row.resize (cols : Nat) (row : Row) : Row := row.take cols ++ blankRow (cols - row.length)

structure Grid where
  rows : List Row
  cols : Nat
  rowsCount : Nat

structure Cursor where
  row : Nat
  col : Nat
deriving DecidableEq

structure TerminalModel where
  grid : Grid
  cursor : Cursor
  scrollback : List Row
  scrollbackMaxLines : Nat
  rev : Nat

namespace TerminalModel

/-- The counter is a saturating `u32`. -/
def bump (m : TerminalModel) : TerminalModel := { m with rev := min (m.rev + 1) (UInt32.size - 1) }

def clampCursor (m : TerminalModel) : TerminalModel :=
  { m with cursor :=
    { col := if m.grid.cols ≤ m.cursor.col then m.grid.cols - 1 else m.cursor.col
      row := if m.grid.rowsCount ≤ m.cursor.row then m.grid.rowsCount - 1 else m.cursor.row } }

/-- The last `limit` lines: the oldest are popped while there are more. -/
def trimFront (limit : Nat) (lines : List Row) : List Row := lines.drop (lines.length - limit)

/-- One round of the loop that gives up rows. -/
def dropRow (m : TerminalModel) : TerminalModel :=
  let lastIdx := m.grid.rows.length - 1
  if m.cursor.row < lastIdx ∧ Row.isBlank (m.grid.rows.getD lastIdx []) then
    { m with grid := { m.grid with rows := m.grid.rows.dropLast } }
  else match m.grid.rows with
    | [] => m
    | dropped :: rest =>
      { m with
        grid := { m.grid with rows := rest }
        scrollback := trimFront m.scrollbackMaxLines (m.scrollback ++ [dropped])
        cursor := { m.cursor with row := m.cursor.row - 1 } }

def reflow (m : TerminalModel) (newCols : Nat) : TerminalModel :=
  { m with grid := { m.grid with rows := m.grid.rows.map (Row.resize newCols), cols := newCols } }

/-- Blank rows at the bottom, up to the new height. -/
def pad (m : TerminalModel) (newRows : Nat) : TerminalModel :=
  let added := replicate (newRows - m.grid.rows.length) (blankRow m.grid.cols)
  { m with grid := { m.grid with rows := m.grid.rows ++ added } }

def fitRows (m : TerminalModel) (newRows : Nat) : TerminalModel :=
  if m.grid.rows.length < newRows then m.pad newRows
  else dropRow^[m.grid.rows.length - newRows] m

def settle (m : TerminalModel) (newRows : Nat) : TerminalModel :=
  (clampCursor { m with grid := { m.grid with rowsCount := newRows } }).bump

def resizeTo (m : TerminalModel) (newCols newRows : Nat) : TerminalModel :=
  if newCols = m.grid.cols ∧ newRows = m.grid.rowsCount then m.bump
  else
    let fitted := if newCols = m.grid.cols then m else m.reflow newCols
    (fitted.fitRows newRows).settle newRows

def resize (m : TerminalModel) (cols rows : Nat) : TerminalModel :=
  m.resizeTo (max cols 1) (max rows 1)

/-- The rows are as wide as the grid. -/
def Square (m : TerminalModel) : Prop := ∀ row ∈ m.grid.rows, row.length = m.grid.cols

structure WellFormed (m : TerminalModel) : Prop where
  rows_length : m.grid.rows.length = m.grid.rowsCount
  square : m.Square
  cursor_row : m.cursor.row < m.grid.rowsCount
  cursor_col : m.cursor.col < m.grid.cols

/-! ## Windows on the rows -/

variable {m : TerminalModel} {row : Row} {cols rows top height : Nat}

/-- No line that is pushed into scrollback pushes another one out. -/
def HasRoom (m : TerminalModel) : Prop :=
  m.scrollback.length + m.grid.rows.length ≤ m.scrollbackMaxLines

/-- The screen that shows `height` rows from the row `top` on: what is above has been pushed into
scrollback and what is below is gone. -/
def window (m : TerminalModel) (top height : Nat) : TerminalModel :=
  { m with
    grid := { m.grid with rows := (m.grid.rows.drop top).take height }
    scrollback := m.scrollback ++ m.grid.rows.take top
    cursor := { m.cursor with row := m.cursor.row - top } }

/-- The window has the cursor, and nothing below it is in use. -/
structure Shows (m : TerminalModel) (top height : Nat) : Prop where
  inside : top + height ≤ m.grid.rows.length
  cursor : m.cursor.row < top + height
  unused : ∀ row ∈ m.grid.rows.drop (top + height), Row.isBlank row

theorem window_zero (m : TerminalModel) : m.window 0 m.grid.rows.length = m := by
  simp [window]

theorem shows_zero (cursor : m.cursor.row < m.grid.rows.length) :
    m.Shows 0 m.grid.rows.length :=
  ⟨by simp, by simpa using cursor, by simp⟩

theorem Shows.length_rows (shows : Shows m top height) :
    (m.window top height).grid.rows.length = height := by
  have := shows.inside
  simp only [window, length_take, length_drop]
  omega

/-- One round takes away the last row of the window, if it is blank and below the cursor, or moves
the window down by one. -/
theorem Shows.dropRow (shows : Shows m top (height + 1)) (room : m.HasRoom) (pos : 0 < height) :
    ∃ top', m.Shows top' height ∧ (m.window top (height + 1)).dropRow = m.window top' height := by
  have length_eq := shows.length_rows
  obtain ⟨inside, cursor, unused⟩ := shows
  have last_lt : top + height < m.grid.rows.length := inside
  have last_eq : (m.window top (height + 1)).grid.rows.getD height [] =
      m.grid.rows.getD (top + height) [] := by
    simp [window]
  rw [TerminalModel.dropRow, length_eq, Nat.add_sub_cancel, last_eq]
  split
  next below =>
    have above : m.cursor.row - top < height := below.1
    refine ⟨top, ⟨by omega, by omega, ?_⟩, ?_⟩
    · rw [drop_eq_getElem_cons last_lt]
      rintro row (_ | ⟨_, mem⟩)
      · simpa [last_lt] using below.2
      · exact unused row mem
    · have cut : ((m.grid.rows.drop top).take (height + 1)).dropLast =
          (m.grid.rows.drop top).take height := by
        rw [dropLast_eq_take, take_take, length_take, length_drop]
        congr 1
        omega
      simp [window, cut]
  next =>
    have top_lt : top < m.grid.rows.length := by omega
    have shown : (m.grid.rows.drop top).take (height + 1) =
        m.grid.rows[top] :: (m.grid.rows.drop (top + 1)).take height := by
      rw [drop_eq_getElem_cons top_lt, take_succ_cons]
    have kept : m.scrollback.length + min (top + 1) m.grid.rows.length -
        m.scrollbackMaxLines = 0 := by
      unfold HasRoom at room
      omega
    refine ⟨top + 1, ⟨by omega, by omega, ?_⟩, ?_⟩
    · rw [Nat.add_right_comm]
      exact unused
    · simp [window, shown, trimFront, kept, Nat.sub_sub]

theorem HasRoom.dropRow_iterate (room : m.HasRoom)
    (cursor : m.cursor.row < m.grid.rows.length) {k : Nat} (lt : k < m.grid.rows.length) :
    ∃ top, m.Shows top (m.grid.rows.length - k) ∧
      dropRow^[k] m = m.window top (m.grid.rows.length - k) := by
  induction k with
  | zero => exact ⟨0, shows_zero cursor, m.window_zero.symm⟩
  | succ k ih =>
    obtain ⟨top, shows, eq⟩ := ih (Nat.lt_of_succ_lt lt)
    obtain ⟨height, height_eq⟩ : ∃ height, m.grid.rows.length - k = height + 1 :=
      ⟨m.grid.rows.length - (k + 1), by omega⟩
    rw [height_eq] at shows eq
    rw [Function.iterate_succ_apply', eq, show m.grid.rows.length - (k + 1) = height by omega]
    exact shows.dropRow room (by omega)

/-- A change of height ends in a window. -/
theorem HasRoom.fitRows_eq_window (room : m.HasRoom)
    (cursor : m.cursor.row < m.grid.rows.length) (pos : 0 < height) :
    ∃ top, (m.pad height).Shows top height ∧
      m.fitRows height = (m.pad height).window top height := by
  unfold fitRows
  split
  case isTrue grows =>
    have length : (m.pad height).grid.rows.length = height := by simp [pad]; omega
    have shows := shows_zero (m := m.pad height) (by rw [length]; exact Nat.lt_trans cursor grows)
    have zero := (m.pad height).window_zero
    rw [length] at shows zero
    exact ⟨0, shows, zero.symm⟩
  case isFalse shrinks =>
    have same : m.pad height = m := by simp [pad, Nat.sub_eq_zero_of_le (Nat.le_of_not_lt shrinks)]
    obtain ⟨top, shows, eq⟩ :=
      room.dropRow_iterate cursor (k := m.grid.rows.length - height) (by omega)
    rw [show m.grid.rows.length - (m.grid.rows.length - height) = height by omega] at shows eq
    exact ⟨top, same.symm ▸ shows, same.symm ▸ eq⟩

theorem Square.reflow_self (square : m.Square) : m.reflow m.grid.cols = m := by
  have rows : m.grid.rows.map (Row.resize m.grid.cols) = m.grid.rows := by
    refine (map_congr_left fun row mem => ?_).trans (map_id _)
    simp [Row.resize, blankRow, ← square row mem]
  rw [reflow, rows]

theorem Square.fitted_eq (square : m.Square) (cols : Nat) :
    (if cols = m.grid.cols then m else m.reflow cols) = m.reflow cols := by
  split
  next same => rw [same, square.reflow_self]
  next => rfl

theorem WellFormed.settle_self (wf : WellFormed m) : m.settle m.grid.rowsCount = m.bump := by
  have row := Nat.not_le_of_lt wf.cursor_row
  have col := Nat.not_le_of_lt wf.cursor_col
  simp [settle, clampCursor, row, col]

theorem HasRoom.reflow (room : m.HasRoom) (cols : Nat) : (m.reflow cols).HasRoom := by
  simpa [HasRoom, TerminalModel.reflow] using room

theorem WellFormed.cursor_reflow (wf : WellFormed m) (cols : Nat) :
    m.cursor.row < (m.reflow cols).grid.rows.length := by
  simpa [reflow, wf.rows_length] using wf.cursor_row

/-- The rows that a resize shows a window of. -/
def refit (m : TerminalModel) (cols rows : Nat) : TerminalModel := (m.reflow cols).pad rows

/-- The screen after a resize is a window on the cut or padded rows. -/
theorem WellFormed.resizeTo_eq_window (wf : WellFormed m) (room : m.HasRoom) (cols : Nat)
    (pos : 0 < rows) : ∃ top, (m.refit cols rows).Shows top rows ∧
      m.resizeTo cols rows = ((m.refit cols rows).window top rows).settle rows := by
  obtain ⟨top, shows, eq⟩ := (room.reflow cols).fitRows_eq_window (wf.cursor_reflow cols) pos
  refine ⟨top, shows, ?_⟩
  rw [refit, ← eq, resizeTo, wf.square.fitted_eq]
  split
  next same =>
    rw [same.1, wf.square.reflow_self, same.2, fitRows, wf.rows_length, if_neg (Nat.lt_irrefl _),
      Nat.sub_self, Function.iterate_zero, id, wf.settle_self]
  next => rfl

theorem mem_rows_dropRow (mem : row ∈ m.dropRow.grid.rows) : row ∈ m.grid.rows := by
  simp only [dropRow] at mem
  split at mem
  · exact dropLast_subset _ mem
  · split at mem
    · exact mem
    next rows => rw [rows]; exact mem_cons_of_mem _ mem

theorem mem_rows_fitRows (mem : row ∈ (m.fitRows height).grid.rows) :
    row ∈ m.grid.rows ∨ row = blankRow m.grid.cols := by
  unfold fitRows at mem
  split at mem
  · exact (mem_append.mp mem).imp_right eq_of_mem_replicate
  · refine .inl ?_
    generalize m.grid.rows.length - height = k at mem
    induction k with
    | zero => exact mem
    | succ k ih =>
      rw [Function.iterate_succ_apply'] at mem
      exact ih (mem_rows_dropRow mem)

/-- Every row after a resize is an old one, cut or padded, or a new one. -/
theorem Square.mem_rows_resizeTo (square : m.Square)
    (mem : row ∈ (m.resizeTo cols rows).grid.rows) :
    (∃ old ∈ m.grid.rows, Row.resize cols old = row) ∨ row = blankRow cols := by
  rw [← mem_map]
  simp only [resizeTo, square.fitted_eq] at mem
  split at mem
  next same =>
    rw [← square.reflow_self, ← same.1] at mem
    exact .inl mem
  next => exact mem_rows_fitRows mem

theorem isBlank_blankRow (cols : Nat) : Row.isBlank (blankRow cols) := by
  simp [blankRow, Row.isBlank, Cell.isBlank]

/-- Every line, from the oldest to the bottom of the grid. -/
def lines (m : TerminalModel) : List Row := m.scrollback ++ m.grid.rows

/-- Where the cursor is among the lines. -/
def cursorLine (m : TerminalModel) : Nat := m.scrollback.length + m.cursor.row

/-- The last row holds the cursor or is not blank. -/
def BottomInUse (m : TerminalModel) : Prop :=
  m.cursor.row + 1 = m.grid.rows.length ∨ ∃ last ∈ m.grid.rows.getLast?, Row.isBlank last = false

theorem bottomInUse_of_scrollback_ne (cursor : m.cursor.row < m.grid.rows.length)
    (moved : m.dropRow.scrollback ≠ m.scrollback) : m.BottomInUse := by
  by_contra idle
  obtain ⟨above, blank⟩ := not_or.mp idle
  have last_lt : m.grid.rows.length - 1 < m.grid.rows.length := by omega
  have last_blank : Row.isBlank (m.grid.rows.getD (m.grid.rows.length - 1) []) := by
    simpa [getLast?_eq_getElem?, last_lt] using blank
  rw [dropRow, if_pos ⟨by omega, last_blank⟩] at moved
  exact moved rfl

/-- The window, what was pushed above it and what was given up below it are the lines there were. -/
theorem lines_window (m : TerminalModel) (top height : Nat) :
    (m.window top height).lines ++ m.grid.rows.drop (top + height) = m.lines := by
  simp only [lines, window, append_assoc]
  rw [← append_assoc (m.grid.rows.take top), ← take_add, take_append_drop]

/-- What a resize of `m` to `cols` columns and `rows` rows keeps in `m'`. -/
structure Keeps (m m' : TerminalModel) (cols rows : Nat) : Prop where
  /-- No line is lost, but for blank rows below the cursor. -/
  lines : ∃ unused added, m'.lines ++ unused = (m.reflow cols).lines ++ added ∧
    (∀ row ∈ unused ++ added, Row.isBlank row) ∧ m.cursorLine + unused.length < m.lines.length
  /-- The cursor stays on its line while the grid shows it. -/
  cursor : m'.scrollback.length ≤ m.cursorLine → m'.cursorLine = m.cursorLine
  same : cols = m.grid.cols → m.reflow cols = m ∧ m'.cursor.col = m.cursor.col
  /-- A round that moves a line into scrollback finds the last row in use. -/
  moved : ∀ k < m.grid.rowsCount - rows,
    (dropRow^[k + 1] (m.reflow cols)).scrollback ≠ (dropRow^[k] (m.reflow cols)).scrollback →
      (dropRow^[k] (m.reflow cols)).BottomInUse
  rows : ∀ row ∈ m'.grid.rows,
    (∃ old ∈ m.grid.rows, Row.resize cols old = row) ∨ row = blankRow cols

theorem HasRoom.bottomInUse (room : m.HasRoom) (cursor : m.cursor.row < m.grid.rows.length)
    {k : Nat} (lt : k < m.grid.rows.length)
    (moved : (dropRow^[k + 1] m).scrollback ≠ (dropRow^[k] m).scrollback) :
    (dropRow^[k] m).BottomInUse := by
  obtain ⟨_, shows, eq⟩ := room.dropRow_iterate cursor lt
  have inside := shows.cursor
  rw [Function.iterate_succ_apply', eq] at moved
  rw [eq]
  refine bottomInUse_of_scrollback_ne ?_ moved
  rw [shows.length_rows]
  simp only [window]
  omega

theorem WellFormed.keeps (wf : WellFormed m) (room : m.HasRoom) (cols : Nat) (pos : 0 < rows) :
    m.Keeps (m.resizeTo cols rows) cols rows := by
  obtain ⟨top, shows, eq⟩ := wf.resizeTo_eq_window room cols pos
  have rows_length := wf.rows_length
  have cursor_row := wf.cursor_row
  have cursor : m.cursor.row < top + rows := shows.cursor
  have length_rows : (m.refit cols rows).grid.rows.length =
      m.grid.rows.length + (rows - m.grid.rows.length) := by
    simp [refit, pad, reflow]
  have scrollback : (m.resizeTo cols rows).scrollback.length = m.scrollback.length + top := by
    have := shows.inside
    rw [eq]
    refine (length_append ..).trans (congrArg _ ?_)
    rw [length_take]
    omega
  exact
    { lines := by
        refine ⟨(m.refit cols rows).grid.rows.drop (top + rows),
          replicate (rows - m.grid.rows.length) (blankRow cols), ?_, fun row mem => ?_, ?_⟩
        · rw [eq]
          refine ((m.refit cols rows).lines_window top rows).trans ?_
          simp [TerminalModel.lines, refit, pad, reflow]
        · rcases mem_append.mp mem with unused | added
          · exact shows.unused row unused
          · rw [eq_of_mem_replicate added]
            exact isBlank_blankRow cols
        · rw [length_drop, length_rows, cursorLine, TerminalModel.lines, length_append]
          omega
      cursor := fun shown => by
        have row : (m.resizeTo cols rows).cursor.row = m.cursor.row - top := by
          rw [eq]
          exact if_neg (by simp only [window, refit, pad, reflow]; omega)
        rw [scrollback, cursorLine] at shown
        rw [cursorLine, cursorLine, scrollback, row]
        omega
      same := fun same => by
        have inside : ¬cols ≤ m.cursor.col := Nat.not_le_of_lt (same ▸ wf.cursor_col)
        rw [eq]
        exact ⟨same ▸ wf.square.reflow_self, if_neg inside⟩
      moved := fun k lt => (room.reflow cols).bottomInUse (wf.cursor_reflow cols) (by
        rw [reflow, length_map]
        omega)
      rows := fun _ => wf.square.mem_rows_resizeTo }

/-- Two lines of text and a blank one, with the cursor on the second. -/
def typed : TerminalModel where
  grid := ⟨[[{ ch := 'a' }, { ch := 'b' }], [{ ch := 'c' }, {}], [{}, {}]], 2, 3⟩
  cursor := ⟨1, 1⟩
  scrollback := []
  scrollbackMaxLines := 10
  rev := 0

end TerminalModel

end NeigeCalm.Terminal
