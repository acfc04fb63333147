import PivotOs.Framebuffer.Backspace
import PivotOs.Library.Runs
import Mathlib.Data.List.TakeWhile

/-!
# A text on a row

A text that stays on a row of the screen is laid out in the cells from some
column on, where a backspace takes back what the text has printed.  Printing
it changes these cells only, unless the last cell of the screen is used and
the screen is cleared.
-/

namespace PivotOs

/-- How far a text has come. -/
structure Layout where
  /-- The characters in front of the cursor, the last first. -/
  shown : List Byte
  /-- The number of cells used. -/
  reach : Nat
  deriving DecidableEq

namespace Layout

variable (v : Video) (s : Screen) (x y : Nat)

/-- Nothing is printed. -/
def empty : Layout := ⟨[], 0⟩

/-- A character takes a cell of the row. -/
def put (c : Byte) (layout : Layout) : Option Layout :=
  if x + layout.shown.length < s.numCols then
    some ⟨c :: layout.shown, max layout.reach (layout.shown.length + 1)⟩
  else none

/-- The last cell of the screen has been used. -/
def Full (layout : Layout) : Prop :=
  x + layout.shown.length = s.numCols ∧ y + 1 = s.numRows

instance (layout : Layout) : Decidable (layout.Full s x y) :=
  inferInstanceAs (Decidable (_ ∧ _))

/-- There is a character to take back: one that shows, or any in the first
column. -/
def Takes (layout : Layout) : Prop :=
  (∃ c ∈ layout.shown, s.Visible v c) ∨ x = 0 ∧ layout.shown ≠ []

instance (layout : Layout) : Decidable (layout.Takes v s x) :=
  inferInstanceAs (Decidable (_ ∨ _))

/-- Backspace takes back the last character that shows, or all of them.  Behind
the last cell of the screen they are gone already. -/
def back (layout : Layout) : Option Layout :=
  if layout.Takes v s x ∧ ¬ layout.Full s x y then
    some
      { layout with
        shown := (layout.shown.dropWhile fun c => ¬ s.Visible v c).tail }
  else none

/-- One character; a newline leaves the row. -/
def step (layout : Layout) (c : Byte) : Option Layout :=
  if c = ascii '\n' then none
  else if c = 0x08#8 then layout.back v s x y
  else if c = ascii '\t' then
    (((layout.put s x (ascii ' ')).bind (put s x (ascii ' '))).bind
      (put s x (ascii ' '))).bind (put s x (ascii ' '))
  else layout.put s x c

section

variable {v : Video} {s : Screen} {x y : Nat} {c : Byte} {layout next : Layout}

theorem put_cases (put : layout.put s x c = some next) :
    x + layout.shown.length < s.numCols ∧
      next = ⟨c :: layout.shown,
        max layout.reach (layout.shown.length + 1)⟩ := by
  rw [Layout.put] at put
  split at put
  · next room => exact ⟨room, (Option.some.inj put).symm⟩
  · cases put

theorem back_cases (back : layout.back v s x y = some next) :
    layout.Takes v s x ∧
      next = { layout with
        shown := (layout.shown.dropWhile fun c => ¬ s.Visible v c).tail } := by
  rw [Layout.back] at back
  split at back
  · next allowed => exact ⟨allowed.1, (Option.some.inj back).symm⟩
  · cases back

/-- There is something to take back. -/
theorem Takes.length_pos (takes : layout.Takes v s x) :
    0 < layout.shown.length := by
  obtain ⟨_, member, -⟩ | ⟨-, listed⟩ := takes
  · exact List.length_pos_of_mem member
  · exact List.length_pos_iff.mpr listed

end

end Layout

namespace Screen

variable {v : Video} {s t : Screen} {x y : Nat} {c : Byte}
  {layout next : Layout}

/-- The screen is set up, and the row is on it. -/
structure HasRow (v : Video) (s : Screen) (y : Nat) : Prop where
  fits : v.Fits
  numCols : s.numCols = v.horizontalRes / v.width
  numRows : s.numRows = v.verticalRes / v.height
  line : y < s.numRows

theorem HasRow.cell
    (row : HasRow v s y)
    (column : x < s.numCols) :
    OnScreen v x y :=
  ⟨row.numCols ▸ column, row.numRows ▸ row.line⟩

/-- The pixels of some cells of a row. -/
def TextCells (v : Video) (x y reach offset : Nat) : Prop :=
  ∃ i < reach, InCell v (x + i) y offset

/-- The text is on the row. -/
structure Typed (v : Video) (s : Screen) (x y : Nat) (layout : Layout)
    (t : Screen) : Prop where
  within : Within (TextCells v x y layout.reach) s t
  cursor : t.screenX = x + layout.shown.length ∧ t.screenY = y ∧
      (layout.shown = [] ∨ x + layout.shown.length < s.numCols) ∨
    t.screenX = 0 ∧ t.screenY = y + 1 ∧ layout.shown ≠ [] ∧
      x + layout.shown.length = s.numCols
  line : t.screenY < s.numRows
  le : layout.shown.length ≤ layout.reach
  room : layout.reach = 0 ∨ x + layout.reach < s.numCols ∨
    x + layout.reach = s.numCols ∧ y + 1 < s.numRows
  shows : ∀ c rest, (c :: rest) <:+ layout.shown →
    (CellBlank v (x + rest.length) y t ↔ ¬ s.Visible v c)

/-- The text has used the last cell of the screen. -/
structure Cleared (v : Video) (s : Screen) (x y : Nat) (layout : Layout)
    (t : Screen) : Prop where
  full : layout.Full s x y
  reach_pos : 0 < layout.reach
  reach_eq : x + layout.reach = s.numCols
  numRows : t.numRows = s.numRows
  line : t.screenY < s.numRows
  inside : ∀ offset, Inside v offset → t.pixels offset = s.bg
  outside : ∀ offset, ¬ Inside v offset → t.pixels offset = s.pixels offset

/-- The cells are on the screen. -/
theorem TextCells.inside
    {reach offset : Nat}
    (member : TextCells v x y reach offset)
    (row : HasRow v s y)
    (wide : x + reach ≤ s.numCols) :
    Inside v offset := by
  obtain ⟨i, below, member⟩ := member
  exact member.inside row.fits (row.cell (by omega))

/-! ## Characters that take a cell -/

/-- A cell is as it was when another one changes. -/
theorem Within.cellBlank_iff
    {x' : Nat}
    (within : Within (InCell v x y) s t)
    (fits : v.Fits)
    (cell : OnScreen v x y)
    (other : OnScreen v x' y)
    (apart : x' ≠ x) :
    CellBlank v x' y t ↔ CellBlank v x' y s := by
  unfold CellBlank
  refine forall_congr' fun offset => imp_congr_right fun member => ?_
  rw [within.bg, within.pixels offset fun here =>
    apart (member.unique here fits other cell).1]

/-- The characters in front of a place. -/
theorem exists_suffix
    {α : Type*} {items : List α} {i : Nat}
    (below : i < items.length) :
    ∃ item rest, (item :: rest) <:+ items ∧ rest.length = i := by
  induction items with
  | nil => exact absurd below (Nat.not_lt_zero i)
  | cons item items inductionHypothesis =>
      rcases Nat.lt_succ_iff_lt_or_eq.mp below with inner | rfl
      · obtain ⟨found, rest, suffix, same⟩ := inductionHypothesis inner
        exact ⟨found, rest, suffix.trans (List.suffix_cons item items), same⟩
      · exact ⟨item, items, List.suffix_rfl, rfl⟩

/-- What is dropped has the property. -/
theorem of_dropWhile
    {α : Type*} {items rest : List α} {item : α} {property : α → Bool}
    (suffix : (item :: rest) <:+ items)
    (dropped : (items.dropWhile property).length ≤ rest.length) :
    property item := by
  induction items with
  | nil => simp at suffix
  | cons head items inductionHypothesis =>
      have shorter := suffix.length_le
      by_contra fails
      rw [List.dropWhile_cons] at dropped
      split at dropped
      · next holds =>
          rcases List.suffix_cons_iff.mp suffix with same | later
          · obtain ⟨rfl, -⟩ := List.cons_eq_cons.mp same
            exact fails holds
          · exact fails (inductionHypothesis later dropped)
      · simp only [List.length_cons] at dropped shorter
        omega

section

variable {printed : Screen}

/-- A character behind the text is in the next cell. -/
theorem Typed.within_printed
    (typed : Typed v s x y layout t)
    (drawn : Within (InCell v (x + layout.shown.length) y) t printed) :
    Within (TextCells v x y (max layout.reach (layout.shown.length + 1))) s
      printed := by
  refine (typed.within.mono ?_).trans (drawn.mono fun offset member => ?_)
  · rintro offset ⟨i, below, member⟩
    exact ⟨i, Nat.lt_of_lt_of_le below (Nat.le_max_left _ _), member⟩
  · exact ⟨_, Nat.lt_of_lt_of_le (Nat.lt_succ_self _) (Nat.le_max_right _ _),
      member⟩

/-- A character that leaves the cursor on the screen continues the text. -/
theorem Typed.extend
    (typed : Typed v s x y layout t)
    (row : HasRow v s y)
    (room : x + layout.shown.length < s.numCols)
    (behind : printed.Behind (x + layout.shown.length) y)
    (drawn : Within (InCell v (x + layout.shown.length) y) t printed)
    (shows : CellBlank v (x + layout.shown.length) y printed ↔
      ¬ t.Visible v c)
    (above : printed.screenY < printed.numRows) :
    Typed v s x y
      ⟨c :: layout.shown, max layout.reach (layout.shown.length + 1)⟩
      printed := by
  have within := typed.within
  have wide := typed.room
  have le := typed.le
  have columns := drawn.numCols.trans within.numCols
  have rows := drawn.numRows.trans within.numRows
  rw [Behind, columns] at behind
  refine ⟨typed.within_printed drawn, ?_, rows ▸ above, Nat.le_max_right _ _,
    ?_, ?_⟩
  · obtain ⟨column, line, open_⟩ | ⟨column, line, last⟩ := behind
    · exact .inl ⟨column, line, .inr open_⟩
    · exact .inr ⟨column, line, List.cons_ne_nil _ _, last⟩
  · dsimp only
    obtain ⟨-, -, open_⟩ | ⟨-, line, last⟩ := behind <;> omega
  · intro sym rest suffix
    rcases List.suffix_cons_iff.mp suffix with same | earlier
    · obtain ⟨rfl, rfl⟩ := List.cons_eq_cons.mp same
      rw [shows, Visible, Visible, within.fg, within.bg]
    · have shorter : rest.length < layout.shown.length := earlier.length_le
      rw [drawn.cellBlank_iff row.fits (row.cell room) (row.cell (by omega))
        (by omega)]
      exact typed.shows sym rest earlier

/-- A character that takes the cursor off the screen clears it. -/
theorem Typed.clear
    (typed : Typed v s x y layout t)
    (row : HasRow v s y)
    (behind : printed.Behind (x + layout.shown.length) y)
    (drawn : Within (InCell v (x + layout.shown.length) y) t printed)
    (below : printed.numRows ≤ printed.screenY) :
    Cleared v s x y
      ⟨c :: layout.shown, max layout.reach (layout.shown.length + 1)⟩
      (printed.clearScreen v) := by
  have line := row.line
  have wide := typed.room
  have le := typed.le
  have all := typed.within_printed drawn
  rw [all.numRows] at below
  rw [Behind, all.numCols] at behind
  obtain ⟨-, last, -⟩ | ⟨-, next, last⟩ := behind
  · omega
  have wide : x + max layout.reach (layout.shown.length + 1) = s.numCols := by
    omega
  refine ⟨⟨last, by omega⟩, Nat.lt_of_lt_of_le (Nat.succ_pos _)
    (Nat.le_max_right _ _), wide, ?_, Nat.lt_of_le_of_lt (Nat.zero_le _) line,
    fun offset inside => ?_, fun offset outside => ?_⟩
  · rw [clearScreen, clearLoop_eq, writeAll_eq]
    exact all.numRows
  · rw [pixels_clearScreen row.fits inside, all.bg]
  · rw [pixels_clearScreen_of_notMem outside]
    exact all.pixels offset fun member =>
      outside (member.inside row wide.le)

end

/-- A character is printed behind the text. -/
theorem Typed.put
    (typed : Typed v s x y layout t)
    (row : HasRow v s y)
    (put : layout.put s x c = some next) :
    Typed v s x y next ((t.printDefault v c).clearAtBottom v) ∨
      Cleared v s x y next ((t.printDefault v c).clearAtBottom v) := by
  obtain ⟨room, rfl⟩ := Layout.put_cases put
  -- The cursor has not left the row, where there is room for the character.
  obtain ⟨column, line, -⟩ | ⟨-, -, -, full⟩ := typed.cursor
  · have bounded : t.Bounded v :=
      ⟨typed.within.numCols.trans row.numCols,
        typed.within.numRows.trans row.numRows,
        by rw [column, line]; exact row.cell room⟩
    obtain ⟨behind, drawn, shows⟩ := printDefault_spec c row.fits bounded
    rw [column, line] at behind drawn shows
    rw [clearAtBottom]
    split
    · next below => exact .inr (typed.clear row behind drawn below)
    · next above =>
        exact .inl (typed.extend row room behind drawn shows
          (Nat.lt_of_not_le above))
  · omega

/-! ## Backspace -/

/-- The cursor is behind the last character. -/
theorem Typed.behind
    (typed : Typed v s x y layout t)
    (some : 0 < layout.shown.length) :
    t.Behind (x + layout.shown.length - 1) y := by
  rw [Behind, typed.within.numCols]
  obtain ⟨column, line, none | open_⟩ | ⟨column, line, -, full⟩ :=
    typed.cursor
  · rw [none] at some
    exact absurd some (Nat.lt_irrefl 0)
  · exact .inl ⟨by omega, line, by omega⟩
  · exact .inr ⟨column, line, by omega⟩

/-- Backspace stops behind the characters that the layout keeps. -/
theorem Typed.back_column
    {column : Nat}
    (typed : Typed v s x y layout t)
    (takes : layout.Takes v s x)
    (before : column ≤ x + layout.shown.length - 1)
    (stopped : column = 0 ∨ ¬ CellBlank v column y t)
    (between : ∀ between, column < between →
      between ≤ x + layout.shown.length - 1 → CellBlank v between y t) :
    column = x + (layout.shown.dropWhile
      fun c => ¬ s.Visible v c).tail.length := by
  have some := takes.length_pos
  have kept_suffix := List.dropWhile_suffix (l := layout.shown)
    fun c => ¬ s.Visible v c
  have head := List.head?_dropWhile_not (fun c => decide (¬ s.Visible v c))
    layout.shown
  have blank : ∀ i < layout.shown.length,
      (layout.shown.dropWhile fun c => ¬ s.Visible v c).length ≤ i →
      CellBlank v (x + i) y t := by
    intro i below dropped
    obtain ⟨c, rest, suffix, rfl⟩ := exists_suffix below
    have hidden := of_dropWhile suffix dropped
    exact (typed.shows c rest suffix).mpr (of_decide_eq_true hidden)
  generalize shown_eq : layout.shown.dropWhile
    (fun c => decide (¬ s.Visible v c)) = kept at *
  cases kept with
  | nil =>
      -- Nothing shows, so the text starts in the first column.
      have first : x = 0 := by
        obtain ⟨c, member, visible⟩ | ⟨first, -⟩ := takes
        · have dropped := List.dropWhile_eq_nil_iff.mp shown_eq c member
          exact absurd visible (of_decide_eq_true dropped)
        · exact first
      subst first
      rcases stopped with home | shows
      · simpa using home
      · have := blank column (by omega) (Nat.zero_le _)
        rw [Nat.zero_add] at this
        exact absurd this shows
  | cons c rest =>
      have inside := kept_suffix.length_le
      rw [List.length_cons] at inside
      have visible : ¬ CellBlank v (x + rest.length) y t := fun none =>
        (typed.shows c rest kept_suffix).mp none (by simpa using head)
      rw [List.tail_cons]
      rcases Nat.lt_trichotomy column (x + rest.length) with
        less | same | more
      · exact absurd (between _ less (by omega)) visible
      · exact same
      · rcases stopped with home | shows
        · omega
        · have := blank (column - x) (by omega)
            (by rw [List.length_cons]; omega)
          rw [Nat.add_sub_cancel' (by omega)] at this
          exact absurd this shows

/-- A character that shows is taken back, or in the first column the text. -/
theorem Typed.back
    (typed : Typed v s x y layout t)
    (row : HasRow v s y)
    (back : layout.back v s x y = some next) :
    Typed v s x y next (t.fbPrintChar v 0x08#8) := by
  obtain ⟨takes, rfl⟩ := Layout.back_cases back
  have le := typed.le
  have wide := typed.room
  have some := takes.length_pos
  have cell : OnScreen v (x + layout.shown.length - 1) y :=
    row.cell (by omega)
  obtain ⟨before, line, erased, -, stopped, between⟩ :=
    fbPrintChar_backspace row.fits cell
      (typed.within.numRows.trans row.numRows) (typed.behind some) rfl
  generalize t.fbPrintChar v 0x08#8 = after at *
  have column := typed.back_column takes before stopped between
  have remains : (layout.shown.dropWhile fun c => ¬ s.Visible v c).tail <:+
      layout.shown :=
    (List.tail_suffix _).trans (List.dropWhile_suffix _)
  have shorter : (layout.shown.dropWhile
      fun c => ¬ s.Visible v c).tail.length < layout.shown.length := by
    have dropped := (List.dropWhile_suffix (l := layout.shown)
      fun c => ¬ s.Visible v c).length_le
    rw [List.length_tail]
    omega
  generalize (layout.shown.dropWhile
    fun c => decide (¬ s.Visible v c)).tail = shown at *
  rw [column] at erased
  refine ⟨typed.within.trans (erased.mono fun offset member => ?_),
    .inl ⟨column, line, .inr ?_⟩, line ▸ row.line, ?_, wide, ?_⟩
  · exact ⟨_, Nat.lt_of_lt_of_le shorter le, member⟩
  · dsimp only
    omega
  · dsimp only
    omega
  · intro sym rest suffix
    have inner : rest.length < shown.length := suffix.length_le
    rw [erased.cellBlank_iff row.fits (row.cell (by omega))
      (row.cell (by omega)) (by omega)]
    exact typed.shows sym rest (suffix.trans remains)

/-! ## Texts -/

/-- The text is on the row, or has led to a cleared screen. -/
def OnRow (v : Video) (s : Screen) (x y : Nat) (t : Screen)
    (layout : Layout) : Prop :=
  Typed v s x y layout t ∨ Cleared v s x y layout t

/-- Behind the last cell of the screen a text has to end. -/
theorem Cleared.stuck
    (cleared : Cleared v s x y layout t)
    (c : Byte) :
    layout.put s x c = none ∧ layout.back v s x y = none := by
  constructor
  · have full := cleared.full.1
    rw [Layout.put, if_neg (by omega)]
  · rw [Layout.back, if_neg fun allowed => allowed.2 cleared.full]

theorem OnRow.put
    (onRow : OnRow v s x y t layout)
    (row : HasRow v s y)
    (put : layout.put s x c = some next) :
    OnRow v s x y ((t.printDefault v c).clearAtBottom v) next := by
  rcases onRow with typed | cleared
  · exact typed.put row put
  · rw [(cleared.stuck c).1] at put
    cases put

/-- The cursor is in a row of the screen. -/
theorem OnRow.above
    (onRow : OnRow v s x y t layout) :
    t.screenY < t.numRows := by
  rcases onRow with typed | cleared
  · exact typed.within.numRows ▸ typed.line
  · exact cleared.numRows ▸ cleared.line

/-- One character more. -/
theorem OnRow.step
    (onRow : OnRow v s x y t layout)
    (row : HasRow v s y)
    (stepped : layout.step v s x y c = some next) :
    OnRow v s x y (t.fbPrintChar v c) next := by
  rw [Layout.step] at stepped
  split at stepped
  · cases stepped
  split at stepped
  · next newline backspace =>
      subst backspace
      rcases onRow with typed | cleared
      · exact .inl (typed.back row stepped)
      · rw [(cleared.stuck 0x08#8).2] at stepped
        cases stepped
  split at stepped
  · next newline backspace tab =>
      obtain ⟨third, stepped, fourth⟩ := Option.bind_eq_some_iff.mp stepped
      obtain ⟨second, stepped, thirdPut⟩ := Option.bind_eq_some_iff.mp stepped
      obtain ⟨first, firstPut, secondPut⟩ :=
        Option.bind_eq_some_iff.mp stepped
      have spaces := (((onRow.put row firstPut).put row secondPut).put row
        thirdPut).put row fourth
      have printed : t.fbPrintChar v c =
          (((t.printSpace v).printSpace v).printSpace v).printSpace v := by
        rw [fbPrintChar, if_neg newline, if_neg backspace, if_pos tab]
        exact clearAtBottom_of_lt spaces.above
      rw [printed]
      exact spaces
  · next newline backspace tab =>
      rw [fbPrintChar_plain ⟨newline, backspace, tab⟩]
      exact onRow.put row stepped

/-- A text printed on a row. -/
theorem onRow_text
    {text : List Byte}
    (row : HasRow v s y)
    (ran : Runs.run (Layout.step v s x y) .empty text = some layout) :
    OnRow v s x y
      (text.foldl (fun t c => t.fbPrintChar v c)
        { s with screenX := x, screenY := y }) layout := by
  refine Runs.run_followed (OnRow v s x y) ?_ (.inl ?_) ran
  · intro t layout c next onRow stepped
    exact onRow.step row stepped
  · refine ⟨⟨rfl, rfl, rfl, rfl, fun _ _ => rfl⟩, .inl ⟨rfl, rfl, .inl rfl⟩,
      row.line, le_rfl, .inl rfl, fun c rest suffix => ?_⟩
    simp [Layout.empty] at suffix

/-- Printing a text on a row changes its cells only exactly when it does not
use the last cell of the screen or the rest of the framebuffer is blank. -/
theorem OnRow.unchanged_iff
    (onRow : OnRow v s x y t layout) :
    (∀ offset, ¬ TextCells v x y layout.reach offset →
      t.pixels offset = s.pixels offset) ↔
    (0 < layout.reach → x + layout.reach = s.numCols → y + 1 = s.numRows →
      ∀ offset, Inside v offset → ¬ TextCells v x y layout.reach offset →
        s.pixels offset = s.bg) := by
  rcases onRow with typed | cleared
  · refine iff_of_true typed.within.pixels fun used last bottom => ?_
    have := typed.room
    omega
  · constructor
    · intro unchanged _ _ _ offset inside outside
      rw [← unchanged offset outside, cleared.inside offset inside]
    · intro blank offset outside
      by_cases inside : Inside v offset
      · rw [cleared.inside offset inside, blank cleared.reach_pos
          cleared.reach_eq cleared.full.2 offset inside outside]
      · exact cleared.outside offset inside

end Screen
end PivotOs
