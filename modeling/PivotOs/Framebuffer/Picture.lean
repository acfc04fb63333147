import PivotOs.Framebuffer.Backspace
import PivotOs.Library.Terminal

/-!
# What the screen shows

The framebuffer is the picture of a terminal.  Every character that is printed
does to the terminal what the code does to the pixels: the glyphs of the symbols are
in their cells, each in the color it was printed in, all other pixels of the
framebuffer have the background color, and no byte outside of it changes.  What a
backspace does depends on the pixels, but the symbols determine it, since a cell is
blank exactly when its symbol does not show.
-/

namespace PivotOs

/-- A character in a color. -/
structure Symbol where
  /-- The character. -/
  char : Byte
  /-- The color. -/
  color : BitVec 32
  deriving DecidableEq

variable {v : Video} {fg bg : BitVec 32} {memory : Nat → BitVec 32}
  {s : Screen} {t : Terminal Symbol} {x y offset : Nat} {sym : Symbol}
  {c : Byte}

/-! ## The picture -/

namespace Picture

/-- The symbol shows on the background. -/
def Visible (v : Video) (bg : BitVec 32) (sym : Symbol) : Prop :=
  sym.color ≠ bg ∧ ¬ Screen.GlyphBlank v sym.char

instance : DecidablePred (Visible v bg) := fun _ =>
  inferInstanceAs (Decidable (_ ∧ _))

/-- Print a character in a color. -/
def print (v : Video) (fg bg : BitVec 32) (t : Terminal Symbol) (c : Byte) :
    Terminal Symbol :=
  let space : Symbol := ⟨ascii ' ', fg⟩
  if c = ascii '\n' then t.newline
  else if c = 0x08#8 then (t.back (Visible v bg)).write space
  else if c = ascii '\t' then
    (((t.put space).put space).put space).put space
  else t.put ⟨c, fg⟩

/-- The color of a pixel of a cell. -/
def color (v : Video) (bg : BitVec 32) (sym : Option Symbol) (cx cy : Nat) :
    BitVec 32 :=
  match sym with
  | none => bg
  | some sym => if Screen.GlyphBit v sym.char cx cy then sym.color else bg

/-- The color of a pixel of the framebuffer. -/
def pixel (v : Video) (bg : BitVec 32) (t : Terminal Symbol)
    (column line : Nat) : BitVec 32 :=
  if column / v.width < t.cols ∧ line / v.height < t.rows then
    color v bg (t.cell (column / v.width) (line / v.height))
      (column % v.width) (line % v.height)
  else bg

/-- The pixels when the terminal is shown, with the memory around the
framebuffer. -/
def render (v : Video) (bg : BitVec 32) (memory : Nat → BitVec 32)
    (t : Terminal Symbol) (offset : Nat) : BitVec 32 :=
  if offset % 4 = 0 ∧ offset / 4 < v.pixelsPerScanline * v.verticalRes then
    pixel v bg t (offset / 4 % v.pixelsPerScanline)
      (offset / 4 / v.pixelsPerScanline)
  else memory offset

/-- The terminal of a screen that has been set up. -/
def blank (v : Video) (fits : v.Fits) : Terminal Symbol where
  cols := v.horizontalRes / v.width
  rows := v.verticalRes / v.height
  cell := fun _ _ => none
  x := 0
  y := 0
  x_lt := Screen.numCols_pos fits
  y_lt := Screen.numRows_pos fits

/-- The terminal has the cells of the screen. -/
structure Fills (v : Video) (t : Terminal Symbol) : Prop where
  cols : t.cols = v.horizontalRes / v.width
  rows : t.rows = v.verticalRes / v.height

theorem Fills.cell
    (fills : Fills v t)
    (column : x < t.cols)
    (line : y < t.rows) :
    Screen.OnScreen v x y :=
  ⟨fills.cols ▸ column, fills.rows ▸ line⟩

/-- A pixel of a cell has the color of its symbol. -/
theorem pixel_cell
    {cx cy : Nat}
    (fills : Fills v t)
    (cell : Screen.OnScreen v x y)
    (column : cx < v.width)
    (line : cy < v.height) :
    pixel v bg t (x * v.width + cx) (y * v.height + cy) =
      color v bg (t.cell x y) cx cy := by
  have wide : 0 < v.width := Nat.zero_lt_of_lt column
  have high : 0 < v.height := Nat.zero_lt_of_lt line
  rw [pixel, Nat.mul_comm x, Nat.mul_comm y, Nat.mul_add_div wide,
    Nat.mul_add_div high, Nat.mul_add_mod, Nat.mul_add_mod,
    Nat.div_eq_of_lt column, Nat.div_eq_of_lt line, Nat.mod_eq_of_lt column,
    Nat.mod_eq_of_lt line, Nat.add_zero, Nat.add_zero, fills.cols, fills.rows]
  exact if_pos ⟨cell.column, cell.line⟩

theorem render_cell
    {cx cy : Nat}
    (fits : v.Fits)
    (fills : Fills v t)
    (cell : Screen.OnScreen v x y)
    (column : cx < v.width)
    (line : cy < v.height) :
    render v bg memory t (Screen.pixelOffset v (x * v.width + cx)
      (y * v.height + cy)) = color v bg (t.cell x y) cx cy := by
  have inside := Screen.line_end_le fits cell line
  have short := cell.column_lt fits column
  have index : Screen.pixelOffset v (x * v.width + cx) (y * v.height + cy) / 4 =
      v.pixelsPerScanline * (y * v.height + cy) + (x * v.width + cx) := by
    rw [Screen.pixelOffset, Nat.mul_comm v.pixelsPerScanline]
    omega
  rw [Nat.mul_comm (y * v.height + cy)] at inside
  rw [render, index, Nat.mul_add_mod, Nat.mod_eq_of_lt short,
    Nat.mul_add_div (Nat.zero_lt_of_lt short), Nat.div_eq_of_lt short,
    Nat.add_zero, pixel_cell fills cell column line]
  exact if_pos ⟨Nat.mul_mod_right _ _, by omega⟩

/-- Only the pixels of the cursor's cell depend on its symbol. -/
theorem pixel_write
    {column line : Nat}
    (other : ¬ (column / v.width = t.x ∧ line / v.height = t.y)) :
    pixel v bg (t.write sym) column line = pixel v bg t column line := by
  have same : (t.write sym).cell (column / v.width) (line / v.height) =
      t.cell (column / v.width) (line / v.height) := if_neg other
  rw [pixel, same]
  rfl

theorem render_write_of_notMem
    (fits : v.Fits)
    (outside : ¬ Screen.InCell v t.x t.y offset) :
    render v bg memory (t.write sym) offset =
      render v bg memory t offset := by
  unfold render
  split
  · next inside =>
      refine pixel_write ?_
      rintro ⟨column, line⟩
      refine outside ⟨offset / 4 % v.pixelsPerScanline % v.width,
        Nat.mod_lt _ fits.width_pos,
        offset / 4 / v.pixelsPerScanline % v.height,
        Nat.mod_lt _ fits.height_pos, ?_⟩
      rw [← column, ← line, Nat.div_add_mod', Nat.div_add_mod',
        Screen.pixelOffset, Nat.div_add_mod']
      omega
  · rfl

/-- Of a terminal that has been cleared nothing but the background shows. -/
theorem render_clear :
    render v bg memory t.clear offset =
      if offset % 4 = 0 ∧ offset / 4 < v.pixelsPerScanline * v.verticalRes then bg
      else memory offset := by
  have background : ∀ column line, pixel v bg t.clear column line = bg :=
    fun _ _ => ite_self _
  rw [render, background]

theorem render_of_outside (outside : ¬ Screen.Inside v offset) :
    render v bg memory t offset = memory offset := by
  unfold render
  refine if_neg fun inside => outside ⟨offset / 4, inside.2, ?_⟩
  omega

/-! ## Printing -/

/-- The screen shows the terminal. -/
structure Displays (v : Video) (fg bg : BitVec 32) (memory : Nat → BitVec 32)
    (s : Screen) (t : Terminal Symbol) : Prop extends Fills v t where
  numCols : s.numCols = t.cols
  numRows : s.numRows = t.rows
  screenX : s.screenX = t.x
  screenY : s.screenY = t.y
  fg_eq : s.fg = fg
  bg_eq : s.bg = bg
  pixels : s.pixels = render v bg memory t

namespace Displays

theorem cursor (displays : Displays v fg bg memory s t) :
    Screen.OnScreen v s.screenX s.screenY := by
  rw [displays.screenX, displays.screenY]
  exact displays.toFills.cell t.x_lt t.y_lt

/-- Where the cursor is, and what was accessed, does not matter. -/
theorem moveTo
    {seen : List Access}
    (displays : Displays v fg bg memory s t)
    (x_lt : x < t.cols)
    (y_lt : y < t.rows) :
    Displays v fg bg memory
      { s with screenX := x, screenY := y, accesses := seen }
      (t.moveTo x y x_lt y_lt) where
  toFills := ⟨displays.cols, displays.rows⟩
  numCols := displays.numCols
  numRows := displays.numRows
  screenX := rfl
  screenY := rfl
  fg_eq := displays.fg_eq
  bg_eq := displays.bg_eq
  pixels := displays.pixels

/-- A cell is blank when its symbol does not show. -/
theorem cellBlank_iff
    (displays : Displays v fg bg memory s t)
    (fits : v.Fits)
    (cell : Screen.OnScreen v x y) :
    Screen.CellBlank v x y s ↔ ¬ t.Shows (Visible v bg) x y := by
  have drawn : ∀ cx < v.width, ∀ cy < v.height,
      s.pixels (Screen.pixelOffset v (x * v.width + cx) (y * v.height + cy)) =
        color v bg (t.cell x y) cx cy := fun cx column cy line => by
    rw [displays.pixels]
    exact render_cell fits displays.toFills cell column line
  constructor
  · rintro blank ⟨sym, found, colors, shown⟩
    refine shown fun cx column cy line bit => colors ?_
    have here := blank _ ⟨cx, column, cy, line, rfl⟩
    rwa [drawn cx column cy line, found, color, if_pos bit,
      displays.bg_eq] at here
  · rintro hidden _ ⟨cx, column, cy, line, rfl⟩
    rw [drawn cx column cy line, displays.bg_eq]
    cases found : t.cell x y with
    | none => rfl
    | some sym =>
        rw [color]
        split
        · next bit =>
            by_contra colors
            exact hidden ⟨sym, found, colors, fun blank =>
              blank cx column cy line bit⟩
        · rfl

/-- `putchar` writes the symbol. -/
theorem putchar
    (displays : Displays v fg bg memory s t)
    (fits : v.Fits)
    (c : Byte) :
    Displays v fg bg memory (s.putchar v c) (t.write ⟨c, fg⟩) := by
  have keeps := Screen.putchar_keeps c fits displays.cursor
  have written : (t.write ⟨c, fg⟩).cell t.x t.y = some ⟨c, fg⟩ := if_pos ⟨rfl, rfl⟩
  have fills : Fills v (t.write ⟨c, fg⟩) := ⟨displays.cols, displays.rows⟩
  have pixels : (s.putchar v c).pixels =
      render v bg memory (t.write ⟨c, fg⟩) := by
    funext offset
    by_cases member : Screen.InCell v s.screenX s.screenY offset
    · obtain ⟨cx, column, cy, line, rfl⟩ := member
      rw [Screen.pixels_putchar c fits displays.cursor column line,
        render_cell fits fills displays.cursor column line, displays.screenX,
        displays.screenY, written, color, displays.fg_eq, displays.bg_eq]
    · rw [Screen.pixels_putchar_of_notMem c fits displays.cursor member,
        displays.pixels, render_write_of_notMem fits]
      rwa [← displays.screenX, ← displays.screenY]
  rw [keeps]
  exact
    { toFills := fills
      numCols := displays.numCols
      numRows := displays.numRows
      screenX := displays.screenX
      screenY := displays.screenY
      fg_eq := displays.fg_eq
      bg_eq := displays.bg_eq
      pixels := pixels }

/-- `clear_screen` clears the terminal, wherever the cursor is. -/
theorem clear
    (displays : Displays v fg bg memory s t)
    (fits : v.Fits)
    (x y : Nat) :
    Displays v fg bg memory
      (Screen.clearScreen v { s with screenX := x, screenY := y }) t.clear := by
  have pixels : (Screen.clearScreen v
      { s with screenX := x, screenY := y }).pixels =
        render v bg memory t.clear := by
    funext offset
    by_cases inside : Screen.Inside v offset
    · rw [Screen.pixels_clearScreen fits inside, render_clear]
      obtain ⟨i, below, rfl⟩ := inside
      rw [if_pos ⟨Nat.mul_mod_right _ _, by omega⟩]
      exact displays.bg_eq
    · rw [Screen.pixels_clearScreen_of_notMem inside,
        render_of_outside inside]
      exact (congrFun displays.pixels offset).trans (render_of_outside inside)
  rw [Screen.clearScreen, Screen.clearLoop_eq, Screen.writeAll_eq] at pixels ⊢
  exact
    { toFills := ⟨displays.cols, displays.rows⟩
      numCols := displays.numCols
      numRows := displays.numRows
      screenX := rfl
      screenY := rfl
      fg_eq := displays.fg_eq
      bg_eq := displays.bg_eq
      pixels := pixels }

/-- The cursor goes to the start of the next line. -/
theorem newline
    (displays : Displays v fg bg memory s t)
    (fits : v.Fits) :
    Displays v fg bg memory
      (Screen.clearAtBottom v
        { s with screenX := 0, screenY := s.screenY + 1 }) t.newline := by
  have line := displays.screenY
  have rows := displays.numRows
  rw [Screen.clearAtBottom, Terminal.newline]
  dsimp only
  by_cases below : t.y + 1 < t.rows
  · rw [dif_pos below, if_neg (by omega), line]
    exact displays.moveTo _ _
  · rw [dif_neg below, if_pos (by omega)]
    exact displays.clear fits 0 (s.screenY + 1)

/-- A character that is printed as such is put. -/
theorem put
    (displays : Displays v fg bg memory s t)
    (fits : v.Fits)
    (c : Byte) :
    Displays v fg bg memory ((s.printDefault v c).clearAtBottom v)
      (t.put ⟨c, fg⟩) := by
  have drawn := displays.putchar fits c
  generalize eq : s.putchar v c = middle at drawn
  have column : middle.screenX = t.x := drawn.screenX
  have line : middle.screenY = t.y := drawn.screenY
  have width : middle.numCols = t.cols := drawn.numCols
  have height : middle.numRows = t.rows := drawn.numRows
  have inside := t.y_lt
  rw [Screen.printDefault, eq, Terminal.put]
  dsimp only
  by_cases room : t.x + 1 < t.cols
  · rw [dif_pos room, if_neg (by omega), Screen.clearAtBottom_of_lt, column,
      line]
    · exact drawn.moveTo room t.y_lt
    · dsimp only
      omega
  · rw [dif_neg room, if_pos (by omega)]
    exact drawn.newline fits

/-! ## Backspace -/

/-- The search stops at the last symbol that shows. -/
theorem findLastLoop
    (displays : Displays v fg bg memory s t)
    (fits : v.Fits)
    (x_lt : x < t.cols)
    (y_lt : y < t.rows)
    (shown_lt : t.lastShown (Visible v bg) y x < t.cols) :
    Displays v fg bg memory
      (Screen.findLastLoop v x { s with screenX := x, screenY := y })
      (t.moveTo (t.lastShown (Visible v bg) y x) y shown_lt y_lt) := by
  have moved := @moveTo _ _ _ _ _ _ _ _ s.accesses displays x_lt y_lt
  obtain ⟨le, line, within, stopped, between⟩ :=
    Screen.findLastLoop_spec x fits moved.cursor rfl
  have shows : ∀ column, column ≤ x →
      (Screen.CellBlank v column y { s with screenX := x, screenY := y } ↔
        ¬ t.Shows (Visible v bg) column y) := fun column before =>
    moved.cellBlank_iff fits
      (displays.toFills.cell (Nat.lt_of_le_of_lt before x_lt) y_lt)
  have column := t.lastShown_eq (Visible v bg) le
    (stopped.imp_right fun visible => by
      by_contra hidden
      exact visible ((shows _ le).mpr hidden))
    (fun other above below => (shows other below).mp
      (between other above below))
  exact
    { toFills := ⟨displays.cols, displays.rows⟩
      numCols := within.numCols.trans displays.numCols
      numRows := within.numRows.trans displays.numRows
      screenX := column.symm
      screenY := line
      fg_eq := within.fg.trans displays.fg_eq
      bg_eq := within.bg.trans displays.bg_eq
      pixels := (funext fun offset => within.pixels offset not_false).trans
        displays.pixels }

/-- `find_last_char` goes back. -/
theorem back
    (displays : Displays v fg bg memory s t)
    (fits : v.Fits) :
    Displays v fg bg memory (s.findLastChar v) (t.back (Visible v bg)) := by
  have column := displays.screenX
  have line := displays.screenY
  have width := displays.numCols
  have inside := t.x_lt
  have above := t.y_lt
  rw [Screen.findLastChar, Terminal.back]
  by_cases first : t.x = 0
  · rw [if_pos first, if_pos (by omega)]
    by_cases top : t.y = 0
    · rw [if_pos top, if_pos (by omega)]
      exact displays
    · have start : ({ s with
            screenX := s.numCols - 1
            screenY := s.screenY - 1 } : Screen) =
          { s with screenX := t.cols - 1, screenY := t.y - 1 } := by
        rw [width, line]
      have last : s.numCols - 1 = t.cols - 1 := by rw [width]
      rw [if_neg top, if_neg (by omega), start, last]
      exact displays.findLastLoop fits (by omega) (by omega) _
  · have start : ({ s with screenX := s.screenX - 1 } : Screen) =
        { s with screenX := t.x - 1, screenY := t.y } := by
      rw [column, ← line]
    rw [if_neg first, if_neg (by omega), start, column]
    exact displays.findLastLoop fits (by omega) above _

/-! ## Characters -/

/-- Every character is printed on the terminal. -/
theorem fbPrintChar
    (displays : Displays v fg bg memory s t)
    (fits : v.Fits)
    (c : Byte) :
    Displays v fg bg memory (s.fbPrintChar v c) (print v fg bg t c) := by
  have above : ∀ {s : Screen} {t : Terminal Symbol},
      Displays v fg bg memory s t → s.clearAtBottom v = s := fun shown =>
    Screen.clearAtBottom_of_lt (by
      rw [shown.screenY, shown.numRows]
      exact Terminal.y_lt _)
  rw [Screen.fbPrintChar, print]
  split
  · exact displays.newline fits
  split
  · have erased := (displays.back fits).putchar fits (ascii ' ')
    rw [above erased]
    exact erased
  split
  · have spaces := (((displays.put fits (ascii ' ')).put fits (ascii ' ')).put
      fits (ascii ' ')).put fits (ascii ' ')
    exact (above spaces).symm ▸ spaces
  · exact displays.put fits c

/-- So are several. -/
theorem foldl
    (displays : Displays v fg bg memory s t)
    (fits : v.Fits)
    (chars : List Byte) :
    Displays v fg bg memory (chars.foldl (fun s c => s.fbPrintChar v c) s)
      (chars.foldl (print v fg bg) t) := by
  induction chars generalizing s t with
  | nil => exact displays
  | cons c chars inductionHypothesis =>
      exact inductionHypothesis (displays.fbPrintChar fits c)

end Displays

/-- `init_framebuffer` shows an empty terminal. -/
theorem displays_initFramebuffer
    (s : Screen)
    (fits : v.Fits) :
    Displays v s.fg s.bg s.pixels (s.initFramebuffer v) (blank v fits) := by
  have pixels : (s.initFramebuffer v).pixels =
      render v s.bg s.pixels (blank v fits) := by
    have cleared : blank v fits = (blank v fits).clear := rfl
    funext offset
    rw [cleared, Screen.initFramebuffer]
    by_cases inside : Screen.Inside v offset
    · rw [Screen.pixels_clearScreen fits inside, render_clear]
      obtain ⟨i, below, rfl⟩ := inside
      rw [if_pos ⟨Nat.mul_mod_right _ _, by omega⟩]
    · rw [Screen.pixels_clearScreen_of_notMem inside,
        render_of_outside inside]
  rw [Screen.initFramebuffer, Screen.clearScreen, Screen.clearLoop_eq,
    Screen.writeAll_eq] at pixels ⊢
  exact ⟨⟨rfl, rfl⟩, rfl, rfl, rfl, rfl, rfl, rfl, pixels⟩

end Picture
end PivotOs
