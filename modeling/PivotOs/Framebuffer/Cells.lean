import PivotOs.Framebuffer.Defs

/-!
# Character cells

With four bytes per pixel and a framebuffer below 4 GiB no offset wraps around,
and the loops over a cell go through the pixels of the cell line by line.
-/

namespace PivotOs

/-- There is room for a cell, a pixel has four bytes, a scanline holds the
pixels of a line, and the framebuffer is smaller than 4 GiB. -/
structure Video.Fits (v : Video) : Prop where
  four : v.bpp = 4
  scanline : v.horizontalRes ≤ v.pixelsPerScanline
  width_pos : 0 < v.width
  width_le : v.width ≤ v.horizontalRes
  height_pos : 0 < v.height
  height_le : v.height ≤ v.verticalRes
  small : 4 * (v.pixelsPerScanline * v.verticalRes) < 2 ^ 32

namespace Screen

variable {v : Video} {s : Screen} {x y : Nat}

/-- The offset of a pixel of the framebuffer. -/
def pixelOffset (v : Video) (column line : Nat) : Nat :=
  4 * (line * v.pixelsPerScanline + column)

/-- The pixels of the framebuffer. -/
def Inside (v : Video) (offset : Nat) : Prop :=
  ∃ i < v.pixelsPerScanline * v.verticalRes, offset = 4 * i

/-- The pixels of a cell. -/
def InCell (v : Video) (x y offset : Nat) : Prop :=
  ∃ cx < v.width, ∃ cy < v.height,
    offset = pixelOffset v (x * v.width + cx) (y * v.height + cy)

/-- A cell on the screen. -/
structure OnScreen (v : Video) (x y : Nat) : Prop where
  column : x < v.horizontalRes / v.width
  line : y < v.verticalRes / v.height

theorem OnScreen.columns_le (cell : OnScreen v x y) :
    (x + 1) * v.width ≤ v.horizontalRes :=
  Nat.le_trans (Nat.mul_le_mul_right _ cell.column) (Nat.div_mul_le_self _ _)

theorem OnScreen.lines_le (cell : OnScreen v x y) :
    (y + 1) * v.height ≤ v.verticalRes :=
  Nat.le_trans (Nat.mul_le_mul_right _ cell.line) (Nat.div_mul_le_self _ _)

/-- A line of a cell ends inside the framebuffer. -/
theorem line_end_le
    {cy : Nat}
    (fits : v.Fits)
    (cell : OnScreen v x y)
    (inside : cy < v.height) :
    (y * v.height + cy) * v.pixelsPerScanline + (x * v.width + v.width) ≤
      v.pixelsPerScanline * v.verticalRes := by
  have columns : x * v.width + v.width ≤ v.pixelsPerScanline := by
    have := cell.columns_le
    rw [Nat.add_mul, Nat.one_mul] at this
    exact this.trans fits.scanline
  have lines : y * v.height + cy + 1 ≤ v.verticalRes := by
    have := cell.lines_le
    rw [Nat.add_mul, Nat.one_mul] at this
    omega
  calc (y * v.height + cy) * v.pixelsPerScanline + (x * v.width + v.width)
      ≤ (y * v.height + cy) * v.pixelsPerScanline + v.pixelsPerScanline :=
        Nat.add_le_add_left columns _
    _ = (y * v.height + cy + 1) * v.pixelsPerScanline := by ring
    _ ≤ v.verticalRes * v.pixelsPerScanline :=
        Nat.mul_le_mul_right _ lines
    _ = v.pixelsPerScanline * v.verticalRes := Nat.mul_comm _ _

/-- The offsets of a cell have 32 bits. -/
theorem OnScreen.small
    (cell : OnScreen v x y)
    (fits : v.Fits) :
    ∀ cy < v.height,
      pixelOffset v (x * v.width + v.width) (y * v.height + cy) < 2 ^ 32 := by
  intro cy below
  have within := line_end_le fits cell below
  have small := fits.small
  unfold pixelOffset
  omega

/-- The cells lie in the framebuffer. -/
theorem InCell.inside
    {offset : Nat}
    (member : InCell v x y offset)
    (fits : v.Fits)
    (cell : OnScreen v x y) :
    Inside v offset := by
  obtain ⟨cx, column, cy, line, rfl⟩ := member
  have := line_end_le fits cell line
  exact ⟨_, by omega, rfl⟩

theorem lineBytes_eq (fits : v.Fits) :
    lineBytes v = 4 * v.pixelsPerScanline := by
  have positive : 1 ≤ v.verticalRes :=
    Nat.le_trans fits.height_pos fits.height_le
  have small := fits.small
  have le : v.pixelsPerScanline ≤ v.pixelsPerScanline * v.verticalRes :=
    Nat.le_mul_of_pos_right _ positive
  rw [lineBytes, fits.four]
  exact wrap32_of_lt (by omega)

/-- `get_offset` is the offset of the first pixel of the cell. -/
theorem getOffset_eq
    (fits : v.Fits)
    (cell : OnScreen v s.screenX s.screenY) :
    s.getOffset v =
      pixelOffset v (s.screenX * v.width) (s.screenY * v.height) := by
  have small := fits.small
  have within := line_end_le fits cell fits.height_pos
  have sum_eq : s.screenY * v.height * (4 * v.pixelsPerScanline) +
      s.screenX * v.width * 4 =
        4 * (s.screenY * v.height * v.pixelsPerScanline +
          s.screenX * v.width) := by ring
  rw [getOffset, lineBytes_eq fits, fits.four, sum_eq, pixelOffset]
  refine wrap_of_lt ?_
  rw [Nat.add_zero] at within
  omega

/-! ## Writing -/

/-- Write pixels one after another. -/
def writeAll (access : Nat → Access) (values : List (Nat × BitVec 32))
    (s : Screen) : Screen :=
  values.foldl (fun s value => s.write access value.1 value.2) s

section

variable {access : Nat → Access} {values others : List (Nat × BitVec 32)}

theorem writeAll_append :
    s.writeAll access (values ++ others) =
      (s.writeAll access values).writeAll access others :=
  List.foldl_append

/-- Writing changes the pixels and the record. -/
theorem writeAll_eq :
    s.writeAll access values =
      { s with
        pixels := (s.writeAll access values).pixels
        accesses := values.reverse.map (fun value => access value.1) ++
          s.accesses } := by
  induction values generalizing s with
  | nil => rfl
  | cons value values inductionHypothesis =>
      have head : s.writeAll access (value :: values) =
        (s.write access value.1 value.2).writeAll access values := rfl
      rw [head, inductionHypothesis]
      simp [write]

@[simp] theorem screenX_writeAll :
    (s.writeAll access values).screenX = s.screenX := by
  rw [writeAll_eq]

@[simp] theorem screenY_writeAll :
    (s.writeAll access values).screenY = s.screenY := by
  rw [writeAll_eq]

@[simp] theorem glyphColor_writeAll (glyph cx : Nat) :
    (s.writeAll access values).glyphColor v glyph cx =
      s.glyphColor v glyph cx := by
  rw [writeAll_eq]
  rfl

end

/-! ## Loops over a cell -/

theorem pixelOffset_add (column line cx : Nat) :
    pixelOffset v (column + cx) line = pixelOffset v column line + 4 * cx := by
  unfold pixelOffset
  ring

theorem pixelOffset_add_line (fits : v.Fits) (column line : Nat) :
    pixelOffset v column line + lineBytes v =
      pixelOffset v column (line + 1) := by
  rw [lineBytes_eq fits]
  unfold pixelOffset
  ring

/-- The next pixel of a line. -/
theorem wrap32_next
    {column line : Nat}
    (fits : v.Fits)
    (small : pixelOffset v (column + 1) line < 2 ^ 32) :
    wrap32 (pixelOffset v column line + v.bpp) =
      pixelOffset v (column + 1) line := by
  rw [fits.four, ← Nat.mul_one 4, ← pixelOffset_add]
  exact wrap32_of_lt small

/-- The next line of a cell. -/
theorem wrap_nextLine
    {column line : Nat}
    (fits : v.Fits)
    (small : pixelOffset v column line < 2 ^ 32) :
    wrap (pixelOffset v column line + lineBytes v) =
      pixelOffset v column (line + 1) := by
  have lineSmall : lineBytes v < 2 ^ 32 := Nat.mod_lt _ (by decide)
  rw [wrap_of_lt (by omega), pixelOffset_add_line fits]

/-- The pixels of a glyph in a line of a cell. -/
def glyphLine (v : Video) (glyph column line : Nat) (s : Screen)
    (columns : List Nat) : List (Nat × BitVec 32) :=
  columns.map fun cx =>
    (pixelOffset v (column + cx) line, s.glyphColor v glyph cx)

/-- The pixels of a glyph at a cell. -/
def glyphPixels (v : Video) (glyph column line : Nat) (s : Screen)
    (count : Nat) : List (Nat × BitVec 32) :=
  (List.range count).flatMap fun cy =>
    glyphLine v (glyph + cy * (wrap32 (v.width + 7) / 8)) column (line + cy) s
      (List.range v.width)

theorem putcharLine_eq
    {column line : Nat}
    (glyph count cx : Nat) (s : Screen)
    (fits : v.Fits)
    (small : pixelOffset v (column + (cx + count)) line < 2 ^ 32) :
    s.putcharLine v glyph count cx (pixelOffset v (column + cx) line) =
      s.writeAll (.drawn s.screenX s.screenY)
        (glyphLine v glyph column line s (List.range' cx count)) := by
  induction count generalizing cx s with
  | zero => rfl
  | succ count inductionHypothesis =>
      have next : pixelOffset v (column + (cx + 1) + count) line < 2 ^ 32 := by
        rwa [Nat.add_assoc, Nat.add_assoc cx, Nat.add_comm 1]
      have here : pixelOffset v (column + cx + 1) line < 2 ^ 32 := by
        rw [Nat.add_assoc] at next ⊢
        rw [pixelOffset_add] at next ⊢
        omega
      rw [putcharLine, wrap32_next fits here, Nat.add_assoc column,
        inductionHypothesis _ _ (by rwa [← Nat.add_assoc]), List.range'_succ]
      rfl

/-- The first line of several, its start, and the lines behind it. -/
theorem pixelOffset_lines
    {column line count : Nat}
    (small : ∀ cy < count + 1,
      pixelOffset v (column + v.width) (line + cy) < 2 ^ 32) :
    pixelOffset v (column + v.width) line < 2 ^ 32 ∧
      pixelOffset v column line < 2 ^ 32 ∧
      ∀ cy < count,
        pixelOffset v (column + v.width) (line + 1 + cy) < 2 ^ 32 := by
  have first := small 0 (Nat.succ_pos count)
  rw [Nat.add_zero] at first
  refine ⟨first, ?_, ?_⟩
  · rw [pixelOffset_add] at first
    omega
  · intro cy below
    rw [Nat.add_assoc, Nat.add_comm 1]
    exact small (cy + 1) (Nat.succ_lt_succ below)

theorem putcharLines_eq
    {column : Nat}
    (count glyph line : Nat) (s : Screen)
    (fits : v.Fits)
    (small : ∀ cy < count,
      pixelOffset v (column + v.width) (line + cy) < 2 ^ 32) :
    s.putcharLines v count glyph (pixelOffset v column line) =
      s.writeAll (.drawn s.screenX s.screenY)
        (glyphPixels v glyph column line s count) := by
  induction count generalizing glyph line s with
  | zero => rfl
  | succ count inductionHypothesis =>
      obtain ⟨first, start, rest⟩ := pixelOffset_lines small
      have drawn : s.putcharLine v glyph v.width 0
          (pixelOffset v column line) = _ :=
        putcharLine_eq glyph v.width 0 s fits (by simpa using first)
      rw [putcharLines, wrap_nextLine fits start, wrap32_of_lt start, drawn,
        inductionHypothesis _ _ _ rest, screenX_writeAll, screenY_writeAll,
        ← writeAll_append]
      refine congrArg (fun values => s.writeAll _ values) ?_
      rw [glyphPixels, glyphPixels, List.range_succ_eq_map, List.flatMap_cons,
        List.flatMap_map]
      simp only [glyphLine, glyphColor_writeAll, Nat.zero_mul, Nat.add_zero,
        List.range_eq_range', Nat.succ_mul, Nat.succ_eq_add_one, Nat.add_assoc,
        Nat.add_comm 1, Nat.add_comm (wrap32 (v.width + 7) / 8)]

/-- `putchar` writes the pixels of the glyph. -/
theorem putchar_eq
    (sym : Byte)
    (fits : v.Fits)
    (cell : OnScreen v s.screenX s.screenY) :
    s.putchar v sym =
      s.writeAll (.drawn s.screenX s.screenY)
        (glyphPixels v (getGlyph v sym) (s.screenX * v.width)
          (s.screenY * v.height) s v.height) := by
  rw [putchar, getOffset_eq fits cell]
  exact putcharLines_eq _ _ _ _ fits (cell.small fits)

/-- They are in the cell. -/
theorem mem_glyphPixels
    {glyph : Nat} {value : Nat × BitVec 32}
    (member : value ∈ glyphPixels v glyph (x * v.width) (y * v.height) s
      v.height) :
    InCell v x y value.1 := by
  obtain ⟨cy, line, listed⟩ := List.mem_flatMap.mp member
  obtain ⟨cx, column, rfl⟩ := List.mem_map.mp listed
  exact ⟨cx, List.mem_range.mp column, cy, List.mem_range.mp line, rfl⟩

/-- The inner loop of `find_last_char` reads pixels of the line. -/
theorem scanLine_spec
    (count column line : Nat) (s : Screen)
    (fits : v.Fits)
    (small : pixelOffset v (column + count) line < 2 ^ 32) :
    ∃ seen, (s.scanLine v count (pixelOffset v column line)).2 =
        { s with accesses := seen ++ s.accesses } ∧
      ∀ access ∈ seen, ∃ cx < count,
        access = .scanned (pixelOffset v (column + cx) line) := by
  induction count generalizing column s with
  | zero => exact ⟨[], rfl, by simp⟩
  | succ count inductionHypothesis =>
      have next : pixelOffset v (column + 1 + count) line < 2 ^ 32 := by
        rwa [Nat.add_assoc, Nat.add_comm 1]
      have here : pixelOffset v (column + 1) line < 2 ^ 32 := by
        rw [pixelOffset_add] at next
        omega
      rw [scanLine]
      split
      · exact ⟨[_], rfl, fun access member =>
          ⟨0, Nat.succ_pos count, List.mem_singleton.mp member⟩⟩
      · rw [wrap32_next fits here]
        obtain ⟨seen, result, scanned⟩ := inductionHypothesis (column + 1)
          { s with
            accesses := .scanned (pixelOffset v column line) :: s.accesses }
          next
        refine ⟨seen ++ [.scanned (pixelOffset v column line)], ?_, ?_⟩
        · rw [result]
          simp
        · intro access member
          rcases List.mem_append.mp member with later | first
          · obtain ⟨cx, below, rfl⟩ := scanned access later
            refine ⟨cx + 1, Nat.succ_lt_succ below, ?_⟩
            rw [Nat.add_assoc, Nat.add_comm 1]
          · exact ⟨0, Nat.succ_pos count, List.mem_singleton.mp first⟩

/-- So does the loop over the lines. -/
theorem scanLines_spec
    (count column line : Nat) (s : Screen)
    (fits : v.Fits)
    (small : ∀ cy < count,
      pixelOffset v (column + v.width) (line + cy) < 2 ^ 32) :
    ∃ seen, (s.scanLines v count (pixelOffset v column line)).2 =
        { s with accesses := seen ++ s.accesses } ∧
      ∀ access ∈ seen, ∃ cx < v.width, ∃ cy < count,
        access = .scanned (pixelOffset v (column + cx) (line + cy)) := by
  induction count generalizing line s with
  | zero => exact ⟨[], rfl, by simp⟩
  | succ count inductionHypothesis =>
      obtain ⟨first, start, rest⟩ := pixelOffset_lines small
      obtain ⟨seen, result, scanned⟩ :=
        scanLine_spec v.width column line s fits first
      rw [scanLines, wrap32_of_lt start]
      split
      · refine ⟨seen, result, fun access member => ?_⟩
        obtain ⟨cx, below, rfl⟩ := scanned access member
        exact ⟨cx, below, 0, Nat.succ_pos count, rfl⟩
      · rw [wrap_nextLine fits start, result]
        obtain ⟨others, final, later⟩ := inductionHypothesis (line + 1)
          { s with accesses := seen ++ s.accesses } rest
        refine ⟨others ++ seen, ?_, fun access member => ?_⟩
        · rw [final]
          simp
        · rcases List.mem_append.mp member with after | before
          · obtain ⟨cx, column_lt, cy, line_lt, rfl⟩ := later access after
            refine ⟨cx, column_lt, cy + 1, Nat.succ_lt_succ line_lt, ?_⟩
            rw [Nat.add_assoc, Nat.add_comm 1]
          · obtain ⟨cx, below, rfl⟩ := scanned access before
            exact ⟨cx, below, 0, Nat.succ_pos count, rfl⟩

/-- `clear_screen` writes every pixel. -/
theorem clearLoop_eq (count i : Nat) (s : Screen) :
    s.clearLoop count i =
      s.writeAll .cleared
        ((List.range' i count).map fun i => (4 * i, s.bg)) := by
  induction count generalizing i s with
  | zero => rfl
  | succ count inductionHypothesis =>
      rw [clearLoop, inductionHypothesis, List.range'_succ]
      rfl

end Screen
end PivotOs
