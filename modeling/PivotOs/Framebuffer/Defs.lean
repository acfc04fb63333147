import PivotOs.Libc.Numerals

/-!
# The framebuffer

`drivers/framebuffer.c`.  The pixels of the framebuffer are addressed by the
offset of their bytes from `KFB.buffer`, and every pixel that the code reads or
writes is recorded.  A pixel has 32 bits, so with four bytes per pixel the
offsets are multiples of 4 and no two pixels overlap.
-/

namespace PivotOs

/-- Reduction of a `uint32_t` expression. -/
def wrap32 (value : Nat) : Nat := value % 2 ^ 32

theorem wrap32_of_lt {value : Nat} (small : value < 2 ^ 32) :
    wrap32 value = value :=
  Nat.mod_eq_of_lt small

/-- `KFB` and the loaded font. -/
structure Video where
  /-- `horizontal_res`. -/
  horizontalRes : Nat
  /-- `vertical_res`. -/
  verticalRes : Nat
  /-- `pixels_per_scanline`. -/
  pixelsPerScanline : Nat
  /-- `bpp`, in bytes. -/
  bpp : Nat
  /-- `header_size` of the font. -/
  headerSize : Nat
  /-- `bytes_per_glyph` of the font. -/
  bytesPerGlyph : Nat
  /-- `height` of the font. -/
  height : Nat
  /-- `width` of the font. -/
  width : Nat
  /-- The bytes of the font, from its header on. -/
  font : Nat → Byte

/-- An access to a pixel. -/
inductive Access
  /-- `find_last_char` reads it. -/
  | scanned (offset : Nat)
  /-- `putchar` writes it, with the cursor there. -/
  | drawn (screenX screenY offset : Nat)
  /-- `clear_screen` writes it. -/
  | cleared (offset : Nat)
  deriving DecidableEq

/-- The cursor and the pixels, with a record of the accesses to them. -/
structure Screen where
  /-- `screen_num_cols`. -/
  numCols : Nat
  /-- `screen_num_rows`. -/
  numRows : Nat
  /-- `screen_x`. -/
  screenX : Nat
  /-- `screen_y`. -/
  screenY : Nat
  /-- `screen_fg`. -/
  fg : BitVec 32
  /-- `screen_bg`. -/
  bg : BitVec 32
  /-- The pixels, by offset. -/
  pixels : Nat → BitVec 32
  /-- The accesses, latest first. -/
  accesses : List Access

namespace Screen

variable (v : Video)

/-- The bytes of a line of pixels. -/
def lineBytes : Nat := wrap32 (v.bpp * v.pixelsPerScanline)

/-- `get_glyph`, as an offset from the font. -/
def getGlyph (sym : Byte) : Nat :=
  v.headerSize + wrap32 (sym.toNat * v.bytesPerGlyph)

/-- `get_offset`. -/
def getOffset (s : Screen) : Nat :=
  wrap (s.screenY * v.height * lineBytes v + s.screenX * v.width * v.bpp)

/-- Write a pixel. -/
def write (access : Nat → Access) (offset : Nat) (color : BitVec 32)
    (s : Screen) : Screen :=
  { s with
    pixels := Function.update s.pixels offset color
    accesses := access offset :: s.accesses }

/-! ## `find_last_char` -/

/-- The inner loop of `find_last_char`: whether it returns. -/
def scanLine : (count line : Nat) → Screen → Bool × Screen
  | 0, _, s => (false, s)
  | count + 1, line, s =>
      let read := { s with accesses := .scanned line :: s.accesses }
      if s.pixels line ≠ s.bg then (true, read)
      else scanLine count (wrap32 (line + v.bpp)) read

/-- The loop over the lines of a cell. -/
def scanLines : (count offset : Nat) → Screen → Bool × Screen
  | 0, _, s => (false, s)
  | count + 1, offset, s =>
      let scanned := s.scanLine v v.width (wrap32 offset)
      if scanned.1 then (true, scanned.2)
      else scanLines count (wrap (offset + lineBytes v)) scanned.2

/-- The outer loop, where the cursor is in the column given. -/
def findLastLoop : (screenX : Nat) → Screen → Screen
  | 0, s => (s.scanLines v v.height (s.getOffset v)).2
  | screenX + 1, s =>
      let scanned := s.scanLines v v.height (s.getOffset v)
      if scanned.1 then scanned.2
      else findLastLoop screenX { scanned.2 with screenX := screenX }

/-- `find_last_char`. -/
def findLastChar (s : Screen) : Screen :=
  if s.screenX = 0 then
    if s.screenY = 0 then s
    else
      findLastLoop v (s.numCols - 1)
        { s with screenX := s.numCols - 1, screenY := s.screenY - 1 }
  else findLastLoop v (s.screenX - 1) { s with screenX := s.screenX - 1 }

/-! ## `putchar` -/

/-- The color of a pixel of a glyph. -/
def glyphColor (glyph cx : Nat) (s : Screen) : BitVec 32 :=
  if v.font (glyph + cx / 8) &&& (0x80#8 >>> (cx % 8)) ≠ 0#8 then s.fg
  else s.bg

/-- The inner loop of `putchar`. -/
def putcharLine (glyph : Nat) : (count cx line : Nat) → Screen → Screen
  | 0, _, _, s => s
  | count + 1, cx, line, s =>
      putcharLine glyph count (cx + 1) (wrap32 (line + v.bpp))
        (s.write (.drawn s.screenX s.screenY) line (s.glyphColor v glyph cx))

/-- The loop over the lines of a glyph. -/
def putcharLines : (count glyph offset : Nat) → Screen → Screen
  | 0, _, _, s => s
  | count + 1, glyph, offset, s =>
      putcharLines count (glyph + wrap32 (v.width + 7) / 8)
        (wrap (offset + lineBytes v))
        (s.putcharLine v glyph v.width 0 (wrap32 offset))

/-- `putchar`. -/
def putchar (sym : Byte) (s : Screen) : Screen :=
  s.putcharLines v v.height (getGlyph v sym) (s.getOffset v)

/-! ## Printing -/

/-- The loop of `clear_screen`. -/
def clearLoop : (count i : Nat) → Screen → Screen
  | 0, _, s => s
  | count + 1, i, s => clearLoop count (i + 1) (s.write .cleared (4 * i) s.bg)

/-- `clear_screen`. -/
def clearScreen (s : Screen) : Screen :=
  { s.clearLoop (wrap32 (v.pixelsPerScanline * v.verticalRes)) 0 with
    screenX := 0
    screenY := 0 }

/-- The `default` of `fb_print_char`. -/
def printDefault (c : Byte) (s : Screen) : Screen :=
  let s := s.putchar v c
  let s := { s with screenX := s.screenX + 1 }
  if s.screenX ≥ s.numCols then
    { s with screenX := 0, screenY := s.screenY + 1 }
  else s

/-- The end of `fb_print_char`. -/
def clearAtBottom (s : Screen) : Screen :=
  if s.screenY ≥ s.numRows then s.clearScreen v else s

/-- `fb_print_char(' ')`. -/
def printSpace (s : Screen) : Screen :=
  (s.printDefault v (ascii ' ')).clearAtBottom v

/-- `fb_print_char`. -/
def fbPrintChar (c : Byte) (s : Screen) : Screen :=
  clearAtBottom v <|
    if c = ascii '\n' then
      { s with screenX := 0, screenY := s.screenY + 1 }
    else if c = 0x08#8 then (s.findLastChar v).putchar v (ascii ' ')
    else if c = ascii '\t' then
      (((s.printSpace v).printSpace v).printSpace v).printSpace v
    else s.printDefault v c

/-- What `init_framebuffer` does to the screen, before it logs a message. -/
def initFramebuffer (s : Screen) : Screen :=
  clearScreen v
    { s with
      numCols := v.horizontalRes / v.width
      numRows := v.verticalRes / v.height }

end Screen
end PivotOs
