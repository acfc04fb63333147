import PivotOs.Framebuffer.Pixels
import PivotOs.Framebuffer.Cursor

/-!
# Backspace

Backspace does not know what was typed.  It goes back to the last cell of the
row that is not blank, or to the first cell of the row, and prints a space
there.  So it takes back a character that shows, and of the others only those
in the first column.
-/

namespace PivotOs
namespace Screen

variable {v : Video} {s middle after : Screen} {x y : Nat} {c : Byte}

/-- Nothing but the pixels of an area, the cursor and the record of accesses
has changed. -/
structure Within (area : Nat → Prop) (s after : Screen) : Prop where
  numCols : after.numCols = s.numCols
  numRows : after.numRows = s.numRows
  fg : after.fg = s.fg
  bg : after.bg = s.bg
  pixels : ∀ offset, ¬ area offset → after.pixels offset = s.pixels offset

section

variable {area larger : Nat → Prop}

theorem Within.trans
    (first : Within area s middle)
    (second : Within area middle after) :
    Within area s after where
  numCols := second.numCols.trans first.numCols
  numRows := second.numRows.trans first.numRows
  fg := second.fg.trans first.fg
  bg := second.bg.trans first.bg
  pixels := fun offset outside =>
    (second.pixels offset outside).trans (first.pixels offset outside)

/-- The cursor and the record do not matter. -/
theorem Within.of_moved
    {seen : List Access}
    (within : Within area
      { s with screenX := x, screenY := y, accesses := seen } after) :
    Within area s after where
  numCols := within.numCols
  numRows := within.numRows
  fg := within.fg
  bg := within.bg
  pixels := within.pixels

theorem Within.mono
    (within : Within area s after)
    (subset : ∀ offset, area offset → larger offset) :
    Within larger s after where
  numCols := within.numCols
  numRows := within.numRows
  fg := within.fg
  bg := within.bg
  pixels := fun offset outside =>
    within.pixels offset fun member => outside (subset offset member)

end

theorem within_putchar
    (sym : Byte)
    (fits : v.Fits)
    (cell : OnScreen v s.screenX s.screenY) :
    Within (InCell v s.screenX s.screenY) s (s.putchar v sym) := by
  have keeps := putchar_keeps sym fits cell
  constructor
  · rw [keeps]
  · rw [keeps]
  · rw [keeps]
  · rw [keeps]
  · exact fun offset outside => pixels_putchar_of_notMem sym fits cell outside

/-- The size of the screen is known, and the cursor is on it. -/
structure Bounded (v : Video) (s : Screen) : Prop where
  numCols : s.numCols = v.horizontalRes / v.width
  numRows : s.numRows = v.verticalRes / v.height
  cursor : OnScreen v s.screenX s.screenY

/-- The cursor is behind a cell. -/
def Behind (s : Screen) (x y : Nat) : Prop :=
  s.screenX = x + 1 ∧ s.screenY = y ∧ x + 1 < s.numCols ∨
    s.screenX = 0 ∧ s.screenY = y + 1 ∧ x + 1 = s.numCols

/-! ## Going back -/

/-- The loop stops at the last cell that is not blank, or in the first
column. -/
theorem findLastLoop_spec
    (x : Nat)
    (fits : v.Fits)
    (cell : OnScreen v s.screenX s.screenY)
    (here : s.screenX = x) :
    (s.findLastLoop v x).screenX ≤ x ∧
      (s.findLastLoop v x).screenY = s.screenY ∧
      Within (fun _ => False) s (s.findLastLoop v x) ∧
      ((s.findLastLoop v x).screenX = 0 ∨
        ¬ CellBlank v (s.findLastLoop v x).screenX s.screenY s) ∧
      ∀ between, (s.findLastLoop v x).screenX < between → between ≤ x →
        CellBlank v between s.screenY s := by
  induction x generalizing s with
  | zero =>
      obtain ⟨seen, result⟩ := scan_keeps fits cell
      rw [findLastLoop, result]
      exact ⟨here.le, rfl, ⟨rfl, rfl, rfl, rfl, fun _ _ => rfl⟩, .inl here,
        fun between above below => by omega⟩
  | succ x inductionHypothesis =>
      have found := scan_iff fits cell
      obtain ⟨seen, result⟩ := scan_keeps fits cell
      rw [findLastLoop, result]
      split
      · next visible =>
          exact ⟨here.le, rfl, ⟨rfl, rfl, rfl, rfl, fun _ _ => rfl⟩,
            .inr (found.mp visible), fun between above below => by
              dsimp only at above
              omega⟩
      · next skipped =>
          have blank : CellBlank v (x + 1) s.screenY s := by
            by_contra visible
            rw [here] at found
            exact skipped (found.mpr visible)
          have column := cell.column
          rw [here] at column
          obtain ⟨le, line, within, stopped, between⟩ :=
            @inductionHypothesis { s with screenX := x, accesses := seen }
              ⟨Nat.lt_of_succ_lt column, cell.line⟩ rfl
          refine ⟨Nat.le_succ_of_le le, line, within.of_moved, stopped, ?_⟩
          intro other above below
          rcases Nat.le_succ_iff.mp below with below | rfl
          · exact between other above below
          · exact blank

/-- From behind a cell, `find_last_char` starts in it. -/
theorem findLastChar_of_behind (behind : s.Behind x y) :
    s.findLastChar v =
      findLastLoop v x { s with screenX := x, screenY := y } := by
  obtain ⟨column, line, -⟩ | ⟨column, line, last⟩ := behind
  · rw [findLastChar, if_neg (by omega), column, ← line]
    rfl
  · rw [findLastChar, if_pos column, if_neg (by omega), line, ← last]
    rfl

theorem clearAtBottom_of_lt (above : s.screenY < s.numRows) :
    s.clearAtBottom v = s :=
  if_neg (Nat.not_le.mpr above)

/-- Backspace behind a cell prints a space in the last cell of the row that is
not blank, or in its first cell. -/
theorem fbPrintChar_backspace
    (fits : v.Fits)
    (cell : OnScreen v x y)
    (numRows : s.numRows = v.verticalRes / v.height)
    (behind : s.Behind x y)
    (printed : s.fbPrintChar v 0x08#8 = after) :
    after.screenX ≤ x ∧ after.screenY = y ∧
      Within (InCell v after.screenX y) s after ∧
      (GlyphBlank v (ascii ' ') → CellBlank v after.screenX y after) ∧
      (after.screenX = 0 ∨ ¬ CellBlank v after.screenX y s) ∧
      ∀ between, after.screenX < between → between ≤ x →
        CellBlank v between y s := by
  obtain ⟨le, line, within, stopped, between⟩ :=
    @findLastLoop_spec v { s with screenX := x, screenY := y } x fits cell rfl
  rw [fbPrintChar, if_neg (by decide), if_pos rfl,
    findLastChar_of_behind behind] at printed
  generalize findLastLoop v x _ = found at *
  have there : OnScreen v found.screenX found.screenY :=
    ⟨Nat.lt_of_le_of_lt le cell.column, line ▸ cell.line⟩
  have keeps := putchar_keeps (ascii ' ') fits there
  have drawn := within_putchar (ascii ' ') fits there
  have blank := cellBlank_putchar_iff (ascii ' ') fits there
  rw [clearAtBottom_of_lt] at printed
  · rw [printed] at keeps drawn blank
    have column : after.screenX = found.screenX := by rw [keeps]
    have row : after.screenY = y := by rw [keeps]; exact line
    rw [line] at drawn blank
    rw [column]
    refine ⟨le, row, ?_, fun space => blank.mpr fun visible =>
      visible.2 space, stopped, between⟩
    exact (within.of_moved.mono fun _ => False.elim).trans drawn
  · rw [drawn.numRows, within.numRows, keeps]
    exact numRows ▸ line ▸ cell.line

/-! ## Typing -/

/-- A character that is printed as such. -/
def Plain (c : Byte) : Prop :=
  c ≠ ascii '\n' ∧ c ≠ 0x08#8 ∧ c ≠ ascii '\t'

instance : Decidable (Plain c) := inferInstanceAs (Decidable (_ ∧ _))

theorem fbPrintChar_plain (plain : Plain c) :
    s.fbPrintChar v c = (s.printDefault v c).clearAtBottom v := by
  rw [fbPrintChar, if_neg plain.1, if_neg plain.2.1, if_neg plain.2.2]

/-- A character is printed in the cell of the cursor, which ends up behind
it. -/
theorem printDefault_spec
    (c : Byte)
    (fits : v.Fits)
    (bounded : s.Bounded v) :
    (s.printDefault v c).Behind s.screenX s.screenY ∧
      Within (InCell v s.screenX s.screenY) s (s.printDefault v c) ∧
      (CellBlank v s.screenX s.screenY (s.printDefault v c) ↔
        ¬ s.Visible v c) := by
  have within := within_putchar c fits bounded.cursor
  have blank := cellBlank_putchar_iff c fits bounded.cursor
  have keeps := putchar_keeps c fits bounded.cursor
  have room := bounded.cursor.column
  rw [← bounded.numCols, ← within.numCols] at room
  have column : (s.putchar v c).screenX = s.screenX := by rw [keeps]
  have line : (s.putchar v c).screenY = s.screenY := by rw [keeps]
  rw [printDefault]
  dsimp only
  rw [column, line]
  split
  · exact ⟨.inr ⟨rfl, rfl, by dsimp only; omega⟩,
      ⟨within.numCols, within.numRows, within.fg, within.bg, within.pixels⟩,
      blank⟩
  · exact ⟨.inl ⟨rfl, rfl, by dsimp only; omega⟩,
      ⟨within.numCols, within.numRows, within.fg, within.bg, within.pixels⟩,
      blank⟩

/-! ## Taking back -/

/-- A character and a backspace behind it leave the framebuffer and the cursor
as they were. -/
def TakesBack (v : Video) (c : Byte) (s : Screen) : Prop :=
  let after := (s.fbPrintChar v c).fbPrintChar v 0x08#8
  after.pixels = s.pixels ∧ after.screenX = s.screenX ∧
    after.screenY = s.screenY

/-- At a blank cell that is not the last of the screen, backspace takes a
character back exactly when its glyph is not blank or it is in the first
column. -/
theorem takesBack_iff
    (v : Video) (s : Screen) (c : Byte)
    (fits : v.Fits)
    (bounded : s.Bounded v)
    (blank : CellBlank v s.screenX s.screenY s)
    (notLast : ¬ (s.screenX + 1 = s.numCols ∧ s.screenY + 1 = s.numRows))
    (space : GlyphBlank v (ascii ' '))
    (colors : s.fg ≠ s.bg)
    (plain : Plain c) :
    s.TakesBack v c ↔ ¬ GlyphBlank v c ∨ s.screenX = 0 := by
  obtain ⟨behind, drawn, visible⟩ := printDefault_spec c fits bounded
  have printed := fbPrintChar_plain (v := v) (s := s) plain
  rw [clearAtBottom_of_lt] at printed
  · have numRows := drawn.numRows.trans bounded.numRows
    rw [← printed] at behind drawn visible numRows
    obtain ⟨le, line, erased, cleared, stopped, between⟩ :=
      fbPrintChar_backspace fits bounded.cursor numRows behind rfl
    rw [TakesBack]
    generalize (s.fbPrintChar v c).fbPrintChar v 0x08#8 = after at *
    constructor
    · rintro ⟨-, column, -⟩
      rw [column] at stopped
      refine stopped.symm.imp (fun shown => ?_) id
      by_contra glyph
      exact shown (visible.mpr fun visible => visible.2 glyph)
    · intro shows
      have column : after.screenX = s.screenX := by
        rcases shows with glyph | first
        · by_contra moved
          have blank := between s.screenX (by omega) le_rfl
          exact visible.mp blank ⟨colors, glyph⟩
        · omega
      rw [column] at erased cleared
      refine ⟨funext fun offset => ?_, column, line⟩
      by_cases member : InCell v s.screenX s.screenY offset
      · rw [cleared space offset member, blank offset member,
          (drawn.trans erased).bg]
      · exact (drawn.trans erased).pixels offset member
  · have line := bounded.cursor.line
    rw [drawn.numRows]
    rw [← bounded.numRows] at line
    obtain ⟨-, same, -⟩ | ⟨-, next, last⟩ := behind
    · omega
    · rw [drawn.numCols] at last
      omega

/-- A font with glyphs for the characters above the space. -/
def spacedVideo : Video :=
  { sampleVideo with
    font := fun offset => if offset < 32 + 33 * 8 then 0#8 else 0xFF#8 }

/-- A blank screen with the cursor in a column of the first row. -/
def blankScreen (x : Nat) : Screen :=
  { sampleScreen with
    numCols := 3
    numRows := 2
    screenX := x
    pixels := fun _ => 0#32 }

/-- A letter at the end of a row. -/
theorem takesBack_lastColumn :
    (blankScreen 2).TakesBack spacedVideo (ascii 'a') :=
  (takesBack_iff spacedVideo (blankScreen 2) (ascii 'a')
    ⟨rfl, by decide, by decide, by decide, by decide, by decide, by decide⟩
    ⟨rfl, rfl, by decide, by decide⟩ (fun _ _ => rfl) (by decide)
    (by decide +kernel) (by decide) (by decide)).mpr
    (.inl (by decide +kernel))

/-- Behind the first column, a space is not taken back. -/
theorem not_takesBack_space :
    spacedVideo.Fits ∧ (blankScreen 1).Bounded spacedVideo ∧
      CellBlank spacedVideo 1 0 (blankScreen 1) ∧
      ¬ (1 + 1 = (blankScreen 1).numCols ∧ 0 + 1 = (blankScreen 1).numRows) ∧
      GlyphBlank spacedVideo (ascii ' ') ∧
      (blankScreen 1).fg ≠ (blankScreen 1).bg ∧ Plain (ascii ' ') ∧
      ¬ (blankScreen 1).TakesBack spacedVideo (ascii ' ') := by
  refine ⟨⟨rfl, by decide, by decide, by decide, by decide, by decide,
    by decide⟩, ⟨rfl, rfl, by decide, by decide⟩, fun _ _ => rfl, by decide,
    by decide +kernel, by decide, by decide, ?_⟩
  rintro ⟨-, column, -⟩
  revert column
  decide +kernel

end Screen
end PivotOs
