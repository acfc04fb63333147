import PivotOs.Libc.Numerals

/-!
# The keyboard driver

`drivers/keyboard.c` gets one byte at a time: a scancode, with bit 7 set when
the key is released, or the prefix 0xE0 of an extended scancode.  The driver
keeps the modifiers that are held and prints the characters of the other keys.
A table lookup behind the end of a table reads whatever lies there, which is a
parameter.  The lookups and the characters that are printed are recorded.
-/

namespace PivotOs
namespace Keyboard

/-- Characters of a key map. -/
def keys (characters : String) : List Byte := characters.toList.map ascii

/-- `keymap`. -/
def keymap : List Byte :=
  [0#8, 0#8] ++ keys "1234567890-=" ++ [0x08#8] ++
  keys "\tqwertyuiop[]\n" ++
  [0#8] ++ keys "asdfghjkl;" ++ [0x27#8, 0x60#8] ++
  [0#8, 0x5C#8] ++ keys "zxcvbnm,./" ++ [0#8] ++
  [ascii '*', 0#8, ascii ' ', 0#8] ++
  List.replicate 12 0#8 ++
  keys "789-456+1230."

/-- `shift_keymap`. -/
def shiftKeymap : List Byte :=
  [0#8, 0#8] ++ keys "!@#$%^&*()_+" ++ [0x08#8] ++
  keys "\tQWERTYUIOP\x7b\x7d\n" ++
  [0#8] ++ keys "ASDFGHJKL:" ++ [0x22#8, ascii '~'] ++
  [0#8, ascii '?'] ++ keys "ZXCVBNM<>|" ++ [0#8] ++
  [ascii '*', 0#8, ascii ' ', 0#8] ++
  List.replicate 12 0#8 ++
  keys "789-456+1230."

/-! ## Scancodes -/

/-- `LEFT_CTRL`. -/
def leftCtrlCode : Byte := 0x1D#8

/-- `LEFT_SHIFT`. -/
def leftShiftCode : Byte := 0x2A#8

/-- `RIGHT_SHIFT`. -/
def rightShiftCode : Byte := 0x36#8

/-- `LEFT_ALT`. -/
def leftAltCode : Byte := 0x38#8

/-- `LEFT_GUI`. -/
def leftGuiCode : Byte := 0x5B#8

/-- `RIGHT_GUI`. -/
def rightGuiCode : Byte := 0x5C#8

/-- `EXTENDED_PREFIX`. -/
def extendedPrefix : Byte := 0xE0#8

/-- `KEY_RELEASE_MASK`. -/
def keyReleaseMask : Byte := 0x80#8

/-- `key_modifiers_t`. -/
inductive KeyModifier where
  /-- `left_shift`. -/
  | leftShift
  /-- `right_shift`. -/
  | rightShift
  /-- `left_alt`. -/
  | leftAlt
  /-- `right_alt`. -/
  | rightAlt
  /-- `left_ctrl`. -/
  | leftCtrl
  /-- `right_ctrl`. -/
  | rightCtrl
  /-- `left_gui`. -/
  | leftGui
  /-- `right_gui`. -/
  | rightGui
  deriving DecidableEq

namespace KeyModifier

/-- The bit of a modifier in `current_modifiers`. -/
def bit : KeyModifier → Nat
  | leftShift => 0
  | rightShift => 1
  | leftAlt => 2
  | rightAlt => 3
  | leftCtrl => 4
  | rightCtrl => 5
  | leftGui => 6
  | rightGui => 7

/-- The value of the enumeration constant. -/
def mask (modifier : KeyModifier) : Byte := 1#8 <<< modifier.bit

end KeyModifier

/-! ## The driver -/

/-- A lookup of `get_char`. -/
structure Lookup where
  /-- It is in `shift_keymap`. -/
  shifted : Bool
  /-- The index. -/
  index : Nat

/-- The table of a lookup. -/
def Lookup.table (lookup : Lookup) : List Byte :=
  if lookup.shifted then shiftKeymap else keymap

/-- The index is one of the table. -/
def Lookup.Inside (lookup : Lookup) : Prop := lookup.index < lookup.table.length

instance (lookup : Lookup) : Decidable lookup.Inside :=
  inferInstanceAs (Decidable (_ < _))

/-- The static variables of the driver, and what it did. -/
structure Driver where
  /-- `current_modifiers`. -/
  currentModifiers : Byte
  /-- `is_pressed`. -/
  isPressed : Byte
  /-- `extended_read`. -/
  extendedRead : Byte
  /-- The lookups of `get_char`, newest first. -/
  lookups : List Lookup
  /-- The characters printed, newest first. -/
  printed : List Byte

namespace Driver

/-- The static variables start as zeros. -/
def initial : Driver where
  currentModifiers := 0#8
  isPressed := 0#8
  extendedRead := 0#8
  lookups := []
  printed := []

/-- `update_modifiers`. -/
def updateModifiers (modifier : KeyModifier) (isPressed : Byte) (s : Driver) :
    Driver :=
  if isPressed ≠ 0#8 then
    { s with currentModifiers := s.currentModifiers ||| modifier.mask }
  else { s with currentModifiers := s.currentModifiers &&& ~~~modifier.mask }

/-- The `switch` of `translate`. -/
def switchModifiers (scancode : Byte) (s : Driver) : Driver :=
  if scancode = leftCtrlCode then
    s.updateModifiers
      (if s.extendedRead ≠ 0#8 then .rightCtrl else .leftCtrl) s.isPressed
  else if scancode = leftAltCode then
    s.updateModifiers
      (if s.extendedRead ≠ 0#8 then .rightAlt else .leftAlt) s.isPressed
  else if scancode = leftGuiCode then s.updateModifiers .leftGui s.isPressed
  else if scancode = rightGuiCode then s.updateModifiers .rightGui s.isPressed
  else if scancode = leftShiftCode then
    s.updateModifiers .leftShift s.isPressed
  else if scancode = rightShiftCode then
    s.updateModifiers .rightShift s.isPressed
  else s

/-- `translate`. -/
def translate (scancode : Byte) (s : Driver) : Byte × Driver :=
  let s := { s with isPressed := 1#8 }
  if scancode = extendedPrefix then
    (scancode, { s with extendedRead := 1#8 })
  else
    let released := scancode &&& keyReleaseMask ≠ 0#8
    let s := if released then { s with isPressed := 0#8 } else s
    let scancode := if released then scancode &&& ~~~keyReleaseMask else scancode
    if scancode < 0x60#8 then
      (scancode, { s.switchModifiers scancode with extendedRead := 0#8 })
    else (0#8, { s with extendedRead := 0#8 })

/-- The lookup of `get_char`. -/
def lookup (scancode : Byte) (s : Driver) : Lookup where
  shifted := s.currentModifiers &&&
    (KeyModifier.leftShift.mask ||| KeyModifier.rightShift.mask) ≠ 0#8
  index := scancode.toNat

/-- `get_char`. -/
def getChar (behind : Lookup → Byte) (scancode : Byte) (s : Driver) : Byte :=
  let lookup := s.lookup scancode
  lookup.table[lookup.index]?.getD (behind lookup)

/-- `keyboard_handler`, called with this byte at the port. -/
def keyboardHandler (behind : Lookup → Byte) (s : Driver) (scancode : Byte) :
    Driver :=
  let translatedScancode := (s.translate scancode).1
  let s := (s.translate scancode).2
  if scancode = extendedPrefix then s
  else if s.isPressed = 0#8 then s
  else
    let key := s.getChar behind translatedScancode
    let s := { s with lookups := s.lookup translatedScancode :: s.lookups }
    if key ≠ 0#8 then { s with printed := key :: s.printed } else s

/-- The driver after the bytes of a stream. -/
def run (behind : Lookup → Byte) (bytes : List Byte) : Driver :=
  bytes.foldl (keyboardHandler behind) initial

end Driver
end Keyboard
end PivotOs
