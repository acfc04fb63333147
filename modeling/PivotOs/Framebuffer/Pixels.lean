import PivotOs.Framebuffer.Cells

/-!
# The pixels of the cells

No two cells share a pixel.  `putchar` changes the cell of the cursor to the
glyph, `find_last_char` stops at a cell with a pixel that does not have the
background color, and `clear_screen` gives every pixel this color.
-/

namespace PivotOs
namespace Screen

variable {v : Video} {s : Screen} {x y offset : Nat} {sym : Byte}

/-- A pixel of a glyph is set. -/
def GlyphBit (v : Video) (sym : Byte) (cx cy : Nat) : Prop :=
  v.font (getGlyph v sym + cy * (wrap32 (v.width + 7) / 8) + cx / 8) &&&
    (0x80#8 >>> (cx % 8)) ≠ 0#8

instance (cx cy : Nat) : Decidable (GlyphBit v sym cx cy) :=
  inferInstanceAs (Decidable (_ ≠ _))

/-- No pixel of a glyph is set. -/
def GlyphBlank (v : Video) (sym : Byte) : Prop :=
  ∀ cx < v.width, ∀ cy < v.height, ¬ GlyphBit v sym cx cy

instance : Decidable (GlyphBlank v sym) :=
  inferInstanceAs (Decidable (∀ cx < v.width, ∀ cy < v.height, ¬ _))

/-- A glyph shows on the screen. -/
def Visible (v : Video) (s : Screen) (sym : Byte) : Prop :=
  s.fg ≠ s.bg ∧ ¬ GlyphBlank v sym

instance : Decidable (s.Visible v sym) := inferInstanceAs (Decidable (_ ∧ _))

/-- Every pixel of a cell has the background color. -/
def CellBlank (v : Video) (x y : Nat) (s : Screen) : Prop :=
  ∀ offset, InCell v x y offset → s.pixels offset = s.bg

/-! ## Pixels apart -/

/-- An index has one row and one place in it. -/
theorem index_unique
    {width row row' place place' : Nat}
    (first : place < width)
    (second : place' < width)
    (same : row * width + place = row' * width + place') :
    place = place' ∧ row = row' := by
  have positive : 0 < width := Nat.lt_of_le_of_lt (Nat.zero_le _) first
  have here := (Nat.div_mod_unique positive).mpr
    ⟨Nat.add_comm place (width * row), first⟩
  have there := (Nat.div_mod_unique positive).mpr
    ⟨Nat.add_comm place' (width * row'), second⟩
  rw [Nat.mul_comm width, same, Nat.mul_comm row'] at here
  exact ⟨here.2.symm.trans there.2, here.1.symm.trans there.1⟩

/-- A pixel has one column and one line. -/
theorem pixelOffset_inj
    {column line column' line' : Nat}
    (first : column < v.pixelsPerScanline)
    (second : column' < v.pixelsPerScanline)
    (same : pixelOffset v column line = pixelOffset v column' line') :
    column = column' ∧ line = line' :=
  index_unique first second (Nat.eq_of_mul_eq_mul_left (by decide) same)

/-- The columns of a cell are pixels of a scanline. -/
theorem OnScreen.column_lt
    {cx : Nat}
    (cell : OnScreen v x y)
    (fits : v.Fits)
    (inside : cx < v.width) :
    x * v.width + cx < v.pixelsPerScanline := by
  have columns := cell.columns_le
  rw [Nat.add_mul, Nat.one_mul] at columns
  exact Nat.lt_of_lt_of_le (by omega) (columns.trans fits.scanline)

/-- No two cells share a pixel. -/
theorem InCell.unique
    {x' y' : Nat}
    (here : InCell v x y offset)
    (there : InCell v x' y' offset)
    (fits : v.Fits)
    (cell : OnScreen v x y)
    (other : OnScreen v x' y') :
    x = x' ∧ y = y' := by
  obtain ⟨cx, column, cy, line, rfl⟩ := here
  obtain ⟨cx', column', cy', line', same⟩ := there
  obtain ⟨columns, lines⟩ := pixelOffset_inj (cell.column_lt fits column)
    (other.column_lt fits column') same
  exact ⟨(index_unique column column' columns).2,
    (index_unique line line' lines).2⟩

/-! ## Writing -/

section

variable {access : Nat → Access} {values : List (Nat × BitVec 32)}

/-- The pixels that are not written are kept. -/
theorem pixels_writeAll_of_notMem
    (missing : ∀ value ∈ values, value.1 ≠ offset) :
    (s.writeAll access values).pixels offset = s.pixels offset := by
  induction values generalizing s with
  | nil => rfl
  | cons value values inductionHypothesis =>
      have head : s.writeAll access (value :: values) =
        (s.write access value.1 value.2).writeAll access values := rfl
      rw [head, inductionHypothesis fun other member =>
        missing other (List.mem_cons_of_mem value member)]
      exact Function.update_of_ne
        (missing value List.mem_cons_self).symm _ _

/-- A pixel that is always written with one color has it afterwards. -/
theorem pixels_writeAll_of_mem
    {color : BitVec 32}
    (listed : ∃ value ∈ values, value.1 = offset)
    (always : ∀ value ∈ values, value.1 = offset → value.2 = color) :
    (s.writeAll access values).pixels offset = color := by
  induction values generalizing s with
  | nil => simp at listed
  | cons value values inductionHypothesis =>
      have head : s.writeAll access (value :: values) =
        (s.write access value.1 value.2).writeAll access values := rfl
      rw [head]
      by_cases later : ∃ value ∈ values, value.1 = offset
      · exact inductionHypothesis later fun other member =>
          always other (List.mem_cons_of_mem value member)
      · -- The head of the list is the last to write the pixel.
        have missing : ∀ other ∈ values, other.1 ≠ offset :=
          fun other member same => later ⟨other, member, same⟩
        have here : value.1 = offset := by
          obtain ⟨other, member, same⟩ := listed
          rcases List.mem_cons.mp member with rfl | member
          · exact same
          · exact absurd same (missing other member)
        rw [pixels_writeAll_of_notMem missing, ← always value
          List.mem_cons_self here, ← here]
        exact Function.update_self _ _ _

end

/-! ## `putchar` -/

/-- `putchar` changes pixels. -/
theorem putchar_keeps
    (sym : Byte)
    (fits : v.Fits)
    (cell : OnScreen v s.screenX s.screenY) :
    s.putchar v sym =
      { s with
        pixels := (s.putchar v sym).pixels
        accesses := (s.putchar v sym).accesses } := by
  rw [putchar_eq sym fits cell, writeAll_eq]

/-- Outside of the cell of the cursor nothing changes. -/
theorem pixels_putchar_of_notMem
    (sym : Byte)
    (fits : v.Fits)
    (cell : OnScreen v s.screenX s.screenY)
    (outside : ¬ InCell v s.screenX s.screenY offset) :
    (s.putchar v sym).pixels offset = s.pixels offset := by
  rw [putchar_eq sym fits cell]
  refine pixels_writeAll_of_notMem fun value member same => outside ?_
  rw [← same]
  exact mem_glyphPixels member

/-- The cell of the cursor shows the glyph. -/
theorem pixels_putchar
    {cx cy : Nat}
    (sym : Byte)
    (fits : v.Fits)
    (cell : OnScreen v s.screenX s.screenY)
    (column : cx < v.width)
    (line : cy < v.height) :
    (s.putchar v sym).pixels (pixelOffset v (s.screenX * v.width + cx)
      (s.screenY * v.height + cy)) =
        if GlyphBit v sym cx cy then s.fg else s.bg := by
  rw [putchar_eq sym fits cell]
  refine pixels_writeAll_of_mem ?_ ?_
  · exact ⟨_, List.mem_flatMap.mpr ⟨cy, List.mem_range.mpr line,
      List.mem_map.mpr ⟨cx, List.mem_range.mpr column, rfl⟩⟩, rfl⟩
  · rintro value member same
    obtain ⟨cy', line', listed⟩ := List.mem_flatMap.mp member
    obtain ⟨cx', column', rfl⟩ := List.mem_map.mp listed
    obtain ⟨columns, lines⟩ := pixelOffset_inj
      (cell.column_lt fits (List.mem_range.mp column'))
      (cell.column_lt fits column) same
    obtain rfl := Nat.add_left_cancel columns
    obtain rfl := Nat.add_left_cancel lines
    rfl

/-- The cell is blank afterwards unless the glyph shows. -/
theorem cellBlank_putchar_iff
    (sym : Byte)
    (fits : v.Fits)
    (cell : OnScreen v s.screenX s.screenY) :
    CellBlank v s.screenX s.screenY (s.putchar v sym) ↔
      ¬ s.Visible v sym := by
  have background : (s.putchar v sym).bg = s.bg := by
    rw [putchar_keeps sym fits cell]
  constructor
  · rintro blank ⟨colors, shown⟩
    refine shown fun cx column cy line bit => colors ?_
    have drawn := blank _ ⟨cx, column, cy, line, rfl⟩
    rwa [pixels_putchar sym fits cell column line, if_pos bit,
      background] at drawn
  · rintro invisible _ ⟨cx, column, cy, line, rfl⟩
    rw [pixels_putchar sym fits cell column line, background]
    split
    · next bit =>
        by_contra colors
        exact invisible ⟨colors, fun blank => blank cx column cy line bit⟩
    · rfl

/-! ## `find_last_char` -/

theorem scanLine_iff
    (count column line : Nat) (s : Screen)
    (fits : v.Fits)
    (small : pixelOffset v (column + count) line < 2 ^ 32) :
    (s.scanLine v count (pixelOffset v column line)).1 = true ↔
      ∃ cx < count, s.pixels (pixelOffset v (column + cx) line) ≠ s.bg := by
  induction count generalizing column s with
  | zero => simp [scanLine]
  | succ count inductionHypothesis =>
      have next : pixelOffset v (column + 1 + count) line < 2 ^ 32 := by
        rwa [Nat.add_assoc, Nat.add_comm 1]
      have here : pixelOffset v (column + 1) line < 2 ^ 32 := by
        rw [pixelOffset_add] at next
        omega
      rw [scanLine]
      split
      · next found => exact iff_of_true rfl ⟨0, Nat.succ_pos count, found⟩
      · next skipped =>
          rw [wrap32_next fits here, inductionHypothesis (column + 1) _ next,
            Nat.exists_lt_succ_left]
          simp only [Nat.add_zero, skipped, false_or, Nat.add_assoc,
            Nat.add_comm 1]

theorem scanLines_iff
    (count column line : Nat) (s : Screen)
    (fits : v.Fits)
    (small : ∀ cy < count,
      pixelOffset v (column + v.width) (line + cy) < 2 ^ 32) :
    (s.scanLines v count (pixelOffset v column line)).1 = true ↔
      ∃ cy < count, ∃ cx < v.width,
        s.pixels (pixelOffset v (column + cx) (line + cy)) ≠ s.bg := by
  induction count generalizing line s with
  | zero => simp [scanLines]
  | succ count inductionHypothesis =>
      obtain ⟨first, start, rest⟩ := pixelOffset_lines small
      have found := scanLine_iff v.width column line s fits first
      obtain ⟨seen, result, -⟩ :=
        scanLine_spec v.width column line s fits first
      rw [scanLines, wrap32_of_lt start, Nat.exists_lt_succ_left,
        Nat.add_zero, ← found]
      split
      · next hit => exact iff_of_true rfl (.inl hit)
      · next skipped =>
          rw [wrap_nextLine fits start, result,
            inductionHypothesis (line + 1) _ rest]
          simp only [skipped, Bool.false_eq_true, false_or, Nat.add_assoc,
            Nat.add_comm 1]

/-- Scanning a cell changes nothing. -/
theorem scan_keeps
    (fits : v.Fits)
    (cell : OnScreen v s.screenX s.screenY) :
    ∃ seen, (s.scanLines v v.height (s.getOffset v)).2 =
      { s with accesses := seen } := by
  rw [getOffset_eq fits cell]
  obtain ⟨seen, result, -⟩ :=
    scanLines_spec v.height _ _ s fits (cell.small fits)
  exact ⟨_, result⟩

/-- `find_last_char` stops where the cell is not blank. -/
theorem scan_iff
    (fits : v.Fits)
    (cell : OnScreen v s.screenX s.screenY) :
    (s.scanLines v v.height (s.getOffset v)).1 = true ↔
      ¬ CellBlank v s.screenX s.screenY s := by
  rw [getOffset_eq fits cell,
    scanLines_iff v.height _ _ s fits (cell.small fits)]
  constructor
  · rintro ⟨cy, line, cx, column, drawn⟩ blank
    exact drawn (blank _ ⟨cx, column, cy, line, rfl⟩)
  · intro visible
    by_contra none
    push Not at none
    refine visible ?_
    rintro _ ⟨cx, column, cy, line, rfl⟩
    exact none cy line cx column

/-! ## `clear_screen` -/

/-- `clear_screen` gives every pixel of the framebuffer the background
color. -/
theorem pixels_clearScreen
    (fits : v.Fits)
    (inside : Inside v offset) :
    (s.clearScreen v).pixels offset = s.bg := by
  obtain ⟨i, below, rfl⟩ := inside
  have small := fits.small
  rw [clearScreen, clearLoop_eq, wrap32_of_lt (by omega)]
  refine pixels_writeAll_of_mem ?_ ?_
  · exact ⟨_, List.mem_map.mpr ⟨i, by simpa using below, rfl⟩, rfl⟩
  · rintro value member -
    obtain ⟨_, -, rfl⟩ := List.mem_map.mp member
    rfl

/-- It writes no others. -/
theorem pixels_clearScreen_of_notMem
    (outside : ¬ Inside v offset) :
    (s.clearScreen v).pixels offset = s.pixels offset := by
  rw [clearScreen, clearLoop_eq]
  refine pixels_writeAll_of_notMem fun value member same => outside ?_
  obtain ⟨i, listed, rfl⟩ := List.mem_map.mp member
  have below : i < wrap32 (v.pixelsPerScanline * v.verticalRes) := by
    simpa using listed
  exact ⟨i, Nat.lt_of_lt_of_le below (Nat.mod_le _ _), same.symm⟩

end Screen
end PivotOs
