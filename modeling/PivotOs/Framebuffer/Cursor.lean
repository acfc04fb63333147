import PivotOs.Framebuffer.Cells

/-!
# The cursor

Every character leaves the cursor on a cell of the screen, so the accesses to
pixels that follow from it stay inside the framebuffer.
-/

namespace PivotOs

/-- The access is to a pixel of the framebuffer, and `putchar` writes in the
cell of the cursor. -/
def Access.Proper (v : Video) : Access → Prop
  | .scanned offset => Screen.Inside v offset
  | .drawn x y offset => Screen.Inside v offset ∧ Screen.InCell v x y offset
  | .cleared offset => Screen.Inside v offset

namespace Screen

variable {v : Video} {s after : Screen} {c : Byte}

/-- The size of the screen is known, and the accesses so far were proper. -/
structure Sound (v : Video) (s : Screen) : Prop where
  numCols : s.numCols = v.horizontalRes / v.width
  numRows : s.numRows = v.verticalRes / v.height
  proper : ∀ access ∈ s.accesses, access.Proper v

/-- The cursor is on the screen. -/
structure Inv (v : Video) (s : Screen) : Prop extends Sound v s where
  cursor : OnScreen v s.screenX s.screenY

/-- Accesses that are added. -/
theorem Sound.access
    {pixels : Nat → BitVec 32} {seen : List Access}
    (sound : s.Sound v)
    (proper : ∀ access ∈ seen, access.Proper v) :
    Sound v { s with pixels := pixels, accesses := seen ++ s.accesses } where
  numCols := sound.numCols
  numRows := sound.numRows
  proper := fun access member =>
    (List.mem_append.mp member).elim (proper access) (sound.proper access)

/-- The cursor may be moved. -/
theorem Sound.move (sound : s.Sound v) (x y : Nat) :
    Sound v { s with screenX := x, screenY := y } where
  numCols := sound.numCols
  numRows := sound.numRows
  proper := sound.proper

theorem numCols_pos (fits : v.Fits) : 0 < v.horizontalRes / v.width :=
  Nat.div_pos fits.width_le fits.width_pos

theorem numRows_pos (fits : v.Fits) : 0 < v.verticalRes / v.height :=
  Nat.div_pos fits.height_le fits.height_pos

/-! ## Operations -/

/-- `putchar` leaves the cursor where it is. -/
theorem Inv.putchar
    (inv : s.Inv v)
    (fits : v.Fits)
    (sym : Byte) :
    (s.putchar v sym).Inv v ∧ (s.putchar v sym).screenX = s.screenX ∧
      (s.putchar v sym).screenY = s.screenY := by
  have sound : (s.putchar v sym).Sound v := by
    rw [putchar_eq sym fits inv.cursor, writeAll_eq]
    refine inv.toSound.access fun access member => ?_
    obtain ⟨value, listed, rfl⟩ := List.mem_map.mp member
    have inCell := mem_glyphPixels (List.mem_reverse.mp listed)
    exact ⟨inCell.inside fits inv.cursor, inCell⟩
  have column : (s.putchar v sym).screenX = s.screenX := by
    rw [putchar_eq sym fits inv.cursor, screenX_writeAll]
  have line : (s.putchar v sym).screenY = s.screenY := by
    rw [putchar_eq sym fits inv.cursor, screenY_writeAll]
  exact ⟨⟨sound, by rw [column, line]; exact inv.cursor⟩, column, line⟩

/-- A cell on the screen is scanned. -/
theorem Inv.scan
    (inv : s.Inv v)
    (fits : v.Fits) :
    ∃ seen, (s.scanLines v v.height (s.getOffset v)).2 =
        { s with accesses := seen ++ s.accesses } ∧
      Inv v { s with accesses := seen ++ s.accesses } := by
  rw [getOffset_eq fits inv.cursor]
  obtain ⟨seen, result, scanned⟩ := scanLines_spec v.height
    (s.screenX * v.width) (s.screenY * v.height) s fits
    (inv.cursor.small fits)
  refine ⟨seen, result, inv.toSound.access fun access member => ?_, inv.cursor⟩
  obtain ⟨cx, column, cy, line, rfl⟩ := scanned access member
  exact InCell.inside ⟨cx, column, cy, line, rfl⟩ fits inv.cursor

/-- The loop of `find_last_char` goes back along the line. -/
theorem Inv.findLastLoop
    (x : Nat)
    (fits : v.Fits)
    (inv : s.Inv v)
    (here : s.screenX = x) :
    (s.findLastLoop v x).Inv v := by
  induction x generalizing s with
  | zero =>
      obtain ⟨seen, result, kept⟩ := inv.scan fits
      rw [Screen.findLastLoop, result]
      exact kept
  | succ x inductionHypothesis =>
      obtain ⟨seen, result, kept⟩ := inv.scan fits
      rw [Screen.findLastLoop, result]
      split
      · exact kept
      · refine inductionHypothesis ⟨kept.toSound.move _ _, ?_, ?_⟩ rfl
        · exact Nat.lt_of_succ_lt (here ▸ inv.cursor.column)
        · exact inv.cursor.line

/-- `find_last_char` finds a cell of the screen. -/
theorem Inv.findLastChar
    (inv : s.Inv v)
    (fits : v.Fits) :
    (s.findLastChar v).Inv v := by
  have columns := numCols_pos fits
  have column := inv.cursor.column
  have line := inv.cursor.line
  rw [Screen.findLastChar]
  split
  · split
    · exact inv
    · refine Inv.findLastLoop _ fits ⟨inv.toSound.move _ _, ?_, ?_⟩ rfl
      · have := inv.numCols
        change s.numCols - 1 < _
        omega
      · exact Nat.lt_of_le_of_lt (Nat.sub_le _ _) line
  · refine Inv.findLastLoop _ fits ⟨inv.toSound.move _ _, ?_, line⟩ rfl
    exact Nat.lt_of_le_of_lt (Nat.sub_le _ _) column

/-- `clear_screen` moves the cursor to the first cell. -/
theorem Sound.clearScreen
    (sound : s.Sound v)
    (fits : v.Fits) :
    (s.clearScreen v).Inv v := by
  refine ⟨?_, numCols_pos fits, numRows_pos fits⟩
  rw [Screen.clearScreen, clearLoop_eq, writeAll_eq]
  refine (sound.access fun access member => ?_).move 0 0
  obtain ⟨value, listed, rfl⟩ := List.mem_map.mp member
  obtain ⟨i, inside, rfl⟩ := List.mem_map.mp (List.mem_reverse.mp listed)
  have below : i < wrap32 (v.pixelsPerScanline * v.verticalRes) := by
    simpa using inside
  exact ⟨i, Nat.lt_of_lt_of_le below (Nat.mod_le _ _), rfl⟩

theorem Sound.clearAtBottom
    (sound : s.Sound v)
    (fits : v.Fits)
    (column : s.screenX < v.horizontalRes / v.width) :
    (s.clearAtBottom v).Inv v := by
  rw [Screen.clearAtBottom]
  split
  · exact sound.clearScreen fits
  · next above =>
      have line := Nat.lt_of_not_le above
      rw [sound.numRows] at line
      exact ⟨sound, column, line⟩

/-- A character leaves the cursor in a column of the screen. -/
theorem Inv.printDefault
    (inv : s.Inv v)
    (fits : v.Fits)
    (c : Byte) :
    (s.printDefault v c).Sound v ∧
      (s.printDefault v c).screenX < v.horizontalRes / v.width := by
  obtain ⟨kept, column, line⟩ := inv.putchar fits c
  rw [Screen.printDefault]
  dsimp only
  split
  · exact ⟨kept.toSound.move _ _, numCols_pos fits⟩
  · next room =>
      have room := Nat.lt_of_not_le room
      rw [kept.numCols] at room
      exact ⟨kept.toSound.move _ _, room⟩

theorem Inv.printSpace
    (inv : s.Inv v)
    (fits : v.Fits) :
    (s.printSpace v).Inv v := by
  obtain ⟨sound, column⟩ := inv.printDefault fits (ascii ' ')
  exact sound.clearAtBottom fits column

/-- Every character leaves the cursor on the screen. -/
theorem Inv.fbPrintChar
    (inv : s.Inv v)
    (fits : v.Fits)
    (c : Byte) :
    (s.fbPrintChar v c).Inv v := by
  rw [Screen.fbPrintChar]
  split
  · exact (inv.toSound.move _ _).clearAtBottom fits (numCols_pos fits)
  · split
    · obtain ⟨kept, -, -⟩ := (inv.findLastChar fits).putchar fits (ascii ' ')
      exact kept.toSound.clearAtBottom fits kept.cursor.column
    · split
      · have spaces := (((inv.printSpace fits).printSpace fits).printSpace
          fits).printSpace fits
        exact spaces.toSound.clearAtBottom fits spaces.cursor.column
      · obtain ⟨sound, column⟩ := inv.printDefault fits c
        exact sound.clearAtBottom fits column

/-- After `init_framebuffer` and any characters, the cursor is on the screen,
and every pixel read or written was inside the framebuffer, by `putchar` in the
cell of its cursor. -/
theorem cursor_on_screen
    (v : Video) (s : Screen) (chars : List Byte)
    (fits : v.Fits)
    (fresh : s.accesses = []) :
    let final := chars.foldl (fun s c => s.fbPrintChar v c)
      (s.initFramebuffer v)
    final.screenX < final.numCols ∧ final.screenY < final.numRows ∧
      ∀ access ∈ final.accesses, access.Proper v := by
  have initially : (s.initFramebuffer v).Inv v := by
    refine Sound.clearScreen ⟨rfl, rfl, ?_⟩ fits
    rw [fresh]
    simp
  have kept : (chars.foldl (fun s c => s.fbPrintChar v c)
      (s.initFramebuffer v)).Inv v := by
    generalize s.initFramebuffer v = current at initially
    induction chars generalizing current with
    | nil => exact initially
    | cons c chars inductionHypothesis =>
        exact inductionHypothesis _ (initially.fbPrintChar fits c)
  dsimp only
  rw [kept.numCols, kept.numRows]
  exact ⟨kept.cursor.column, kept.cursor.line, kept.proper⟩

/-- Three by two cells of 8 by 8 pixels, with some pixels to spare. -/
def sampleVideo : Video where
  horizontalRes := 30
  verticalRes := 20
  pixelsPerScanline := 32
  bpp := 4
  headerSize := 32
  bytesPerGlyph := 8
  height := 8
  width := 8
  font := fun _ => 0xFF#8

/-- The screen before it is set up. -/
def sampleScreen : Screen where
  numCols := 0
  numRows := 0
  screenX := 0
  screenY := 0
  fg := 0xFFFFFFFF#32
  bg := 0#32
  pixels := fun _ => 0x123456#32
  accesses := []

/-- A line, a tab and two backspaces. -/
theorem cursor_on_screen_sample :
    let final := ([ascii 'o', ascii 'k', ascii '\n', ascii '\t', 0x08#8,
      0x08#8] : List Byte).foldl (fun s c => s.fbPrintChar sampleVideo c)
        (sampleScreen.initFramebuffer sampleVideo)
    final.screenX < final.numCols ∧ final.screenY < final.numRows ∧
      ∀ access ∈ final.accesses, access.Proper sampleVideo :=
  cursor_on_screen sampleVideo sampleScreen _
    ⟨rfl, by decide, by decide, by decide, by decide, by decide, by decide⟩ rfl

end Screen
end PivotOs
