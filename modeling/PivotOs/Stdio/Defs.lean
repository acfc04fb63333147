import PivotOs.Libc.Numerals
import PivotOs.Logging

/-!
# Printing

`io/stdio.c` and `kernel/logging.c`.  Text is collected in `fb_buf` and goes
to `char_printer` when a newline is printed.  An operation fails when the code
would store outside of `fb_buf` or read past the end of a format.  The locks
are left to the statements about several processors.
-/

universe u

namespace PivotOs

/-- A text of the source. -/
def literal (text : String) : List Byte := text.toList.map ascii

/-- An argument as `va_arg` reads it: the eight bytes passed, and the string
they point to when they are a pointer. -/
structure VaArg where
  /-- The bytes. -/
  word : Word
  /-- The string. -/
  string : CString

/-- `va_list`: the arguments not yet read, and whatever follows them. -/
abbrev VaList := Nat → VaArg

namespace VaList

/-- The list after one `va_arg`. -/
def rest (args : VaList) : VaList := fun i => args (i + 1)

/-- The list of some arguments, followed by zeros. -/
def of (args : List VaArg) : VaList := fun i =>
  args.getD i ⟨0#64, ⟨[], List.not_mem_nil⟩⟩

end VaList

/-- What `stdio.c` keeps and the screen that `char_printer` prints on, with a
record of the characters that `char_printer` was called with. -/
structure Stdio (Screen : Type u) where
  /-- `fb_buf`. -/
  fbBuf : Buffer Byte 128
  /-- `fb_buf_pos`. -/
  fbBufPos : Nat
  /-- The screen. -/
  screen : Screen
  /-- The characters printed. -/
  printed : List Byte

/-- `log_levels`. -/
def LogLevel.name : LogLevel → CString
  | .error => ⟨literal "ERROR", by decide⟩
  | .warning => ⟨literal "WARNING", by decide⟩
  | .info => ⟨literal "INFO", by decide⟩
  | .verbose => ⟨literal "VERBOSE", by decide⟩
  | .debug => ⟨literal "DEBUG", by decide⟩
  | .trace => ⟨literal "TRACE", by decide⟩

namespace Stdio

variable {Screen : Type u} (charPrinter : Byte → Screen → Screen)

/-- `flush_screen`. -/
def flushScreen (s : Stdio Screen) : Stdio Screen :=
  let pending := s.fbBuf.read s.fbBufPos
  { s with
    screen := pending.foldl (fun screen c => charPrinter c screen) s.screen
    printed := s.printed ++ pending
    fbBufPos := 0 }

/-- `fb_buf[fb_buf_pos++] = c`. -/
def putChar (c : Byte) (s : Stdio Screen) : Option (Stdio Screen) :=
  (s.fbBuf.store s.fbBufPos c).map fun fbBuf =>
    { s with fbBuf := fbBuf, fbBufPos := s.fbBufPos + 1 }

/-- `add_string`. -/
def addString : List Byte → Stdio Screen → Option (Stdio Screen)
  | [], s => some s
  | c :: str, s => (s.putChar c).bind (addString str)

/-- `fb_buf_pos +=` what `itoa(num, fb_buf + fb_buf_pos, 21, 10)` returns. -/
def addItoa (num : Word) (s : Stdio Screen) : Option (Stdio Screen) :=
  (Libc.itoa num s.fbBufPos 21 10 s.fbBuf).map fun result =>
    { s with fbBuf := result.2, fbBufPos := s.fbBufPos + result.1 }

/-- `fb_buf_pos +=` what `ultoa(num, fb_buf + fb_buf_pos, radix)` returns. -/
def addUltoa (radix : Nat) (num : Word) (s : Stdio Screen) :
    Option (Stdio Screen) :=
  (Libc.ultoa num s.fbBufPos radix s.fbBuf).map fun result =>
    { s with fbBuf := result.2, fbBufPos := s.fbBufPos + result.1 }

/-- `if (c == '\n') flush_screen()`. -/
def flushAfter (c : Byte) (s : Stdio Screen) : Stdio Screen :=
  if c = ascii '\n' then s.flushScreen charPrinter else s

/-- The `switch` of `vprintf`, for the character behind `%`: the arguments
left, and the state. -/
def convert (c : Byte) (args : VaList) (s : Stdio Screen) :
    Option (VaList × Stdio Screen) :=
  if c = ascii 's' then
    (s.addString (args 0).string.text).map fun s => (args.rest, s)
  else if c = ascii 'c' then
    let ch := (args 0).word.setWidth 8
    (s.putChar ch).map fun s => (args.rest, s.flushAfter charPrinter ch)
  else if c = ascii 'd' then
    (s.addItoa (args 0).word).map fun s => (args.rest, s)
  else if c = ascii 'u' then
    (s.addUltoa 10 (args 0).word).map fun s => (args.rest, s)
  else if c = ascii 'x' then
    ((s.addString (literal "0x")).bind (addUltoa 16 (args 0).word)).map
      fun s => (args.rest, s)
  else if c = ascii 'b' then
    ((s.addString (literal "0b")).bind (addUltoa 2 (args 0).word)).map
      fun s => (args.rest, s)
  else some (args, s)

/-- `vprintf`, from a place in the format on.  When `%` is the last character,
the loop goes on behind the final zero. -/
def vprintf : List Byte → VaList → Stdio Screen → Option (Stdio Screen)
  | [], _, s => some s
  | c :: format, args, s =>
      if c ≠ ascii '%' then
        (s.putChar c).bind fun s =>
          vprintf format args (s.flushAfter charPrinter c)
      else
        match format with
        | [] => none
        | c :: format =>
            (s.convert charPrinter c args).bind fun result =>
              vprintf format result.1 (result.2.flushAfter charPrinter c)

/-- `printf`. -/
def printf (format : CString) (args : VaList) (s : Stdio Screen) :
    Option (Stdio Screen) :=
  s.vprintf charPrinter format.text args

/-- The format of the line heads that `log` prints. -/
def logHead : CString := ⟨literal "[%u][%s] %s: ", by decide⟩

/-- The format of the line ends that `log` prints. -/
def logEnd : CString := ⟨literal "\n", by decide⟩

/-- The arguments of the head of a line: the processor, the level, and the
target. -/
def logHeadArgs (cpu : BitVec 8) (level : LogLevel) (target : CString) :
    VaList :=
  let empty : CString := ⟨[], List.not_mem_nil⟩
  .of [⟨cpu.setWidth 64, empty⟩, ⟨0#64, level.name⟩, ⟨0#64, target⟩]

/-- `log`. -/
def log (cpu : BitVec 8) (level : LogLevel) (target format : CString)
    (args : VaList) (s : Stdio Screen) : Option (Stdio Screen) :=
  if level.Skipped then some s
  else
    (s.printf charPrinter logHead (logHeadArgs cpu level target)).bind fun s =>
      (s.vprintf charPrinter format.text args).bind fun s =>
        s.printf charPrinter logEnd (.of [])

/-- A call that prints. -/
inductive Call
  | printf (format : CString) (args : VaList)
  | log (cpu : BitVec 8) (level : LogLevel) (target format : CString)
      (args : VaList)

/-- One call. -/
def step (s : Stdio Screen) : Call → Option (Stdio Screen)
  | .printf format args => s.printf charPrinter format args
  | .log cpu level target format args =>
      s.log charPrinter cpu level target format args

/-- Nothing has been printed. -/
def start (screen : Screen) : Stdio Screen where
  fbBuf := ⟨fun _ => 0#8⟩
  fbBufPos := 0
  screen := screen
  printed := []

end Stdio
end PivotOs
