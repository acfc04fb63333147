import PivotOs.Framebuffer.Row
import PivotOs.Stdio.Bounds

/-!
# Printing at a place

`printf_at` moves the cursor, prints, and moves the cursor back.  It saves the
cursor but not the text that is still in `fb_buf`, which is printed at the
place with the new text and gone afterwards.
-/

namespace PivotOs
namespace Stdio

open OutputStream

variable {v : Video} {s after : Stdio Screen} {x y reach : Nat}
  {format : CString} {args : VaList} {layout : Layout}

/-- `fb_print_char` as the `char_printer`. -/
def fbPrinter (v : Video) (c : Byte) (screen : Screen) : Screen :=
  screen.fbPrintChar v c

/-- Set `screen_x` and `screen_y`. -/
def moveTo (x y : Nat) (s : Stdio Screen) : Stdio Screen :=
  { s with screen := { s.screen with screenX := x, screenY := y } }

/-- `printf_at`. -/
def printfAt (v : Video) (x y : Nat) (format : CString) (args : VaList)
    (s : Stdio Screen) : Option (Stdio Screen) :=
  let oldX := s.screen.screenX
  let oldY := s.screen.screenY
  ((s.moveTo x y).vprintf (fbPrinter v) format.text args).map fun s =>
    (s.flushScreen (fbPrinter v)).moveTo oldX oldY

/-- The text of a format as `vprintf` renders it. -/
def text (format : CString) (args : VaList) : List Byte :=
  written (ops format.text args)

/-- `printf_at` changes so many cells of the row only, puts the cursor back,
and leaves what was pending to be printed there. -/
def Framed (v : Video) (x y reach : Nat) (format : CString) (args : VaList)
    (s : Stdio Screen) : Prop :=
  ∃ after, s.printfAt v x y format args = some after ∧
    (∀ offset, ¬ Screen.TextCells v x y reach offset →
      after.screen.pixels offset = s.screen.pixels offset) ∧
    after.screen.screenX = s.screen.screenX ∧
    after.screen.screenY = s.screen.screenY ∧
    after.pending = s.pending

theorem pending_eq_nil_iff : s.pending = [] ↔ s.fbBufPos = 0 := by
  simp [pending, Buffer.read]

/-- Nothing is pending afterwards. -/
theorem Framed.pending_eq_nil (framed : s.Framed v x y reach format args) :
    s.pending = [] := by
  obtain ⟨after, printed, -, -, -, kept⟩ := framed
  obtain ⟨middle, -, rfl⟩ := Option.map_eq_some_iff.mp printed
  rw [← kept]
  rfl

/-- `vprintf` returns when the format ends and the buffer holds its text. -/
theorem printfAt_isSome_iff :
    (s.printfAt v x y format args).isSome ↔
      paired format.text ∧ Fits 128 s.fbBufPos (ops format.text args) := by
  have fits_iff : paired format.text →
      (((s.moveTo x y).vprintf (fbPrinter v) format.text args).isSome ↔
        Fits 128 s.fbBufPos (ops format.text args)) := fun ends =>
    (emits_vprintf format.text args ends).isSome_iff (s.moveTo x y)
  rw [printfAt, Option.isSome_map]
  constructor
  · intro returns
    have ends : paired format.text := by
      by_contra unpaired
      rw [vprintf_of_not_paired _ _ _ unpaired] at returns
      cases returns
    exact ⟨ends, (fits_iff ends).mp returns⟩
  · rintro ⟨ends, fits⟩
    exact (fits_iff ends).mpr fits

/-- With nothing pending, `printf_at` prints the text at the place. -/
theorem printfAt_eq
    (ends : paired format.text)
    (clean : s.pending = [])
    (printed : s.printfAt v x y format args = some after) :
    after.screen =
      { (text format args).foldl (fun screen c => screen.fbPrintChar v c)
          { s.screen with screenX := x, screenY := y } with
        screenX := s.screen.screenX
        screenY := s.screen.screenY } := by
  obtain ⟨middle, ran, rfl⟩ := Option.map_eq_some_iff.mp printed
  have emits := @emits_vprintf _ (fbPrinter v) format.text args ends
  obtain ⟨early, record, screen⟩ := emits.screen _ middle ran
  have streamed := emits.stream (s.moveTo x y)
  rw [ran] at streamed
  have law := run_written streamed.symm
  have whole : early ++ middle.pending = text format args := by
    have printed_eq : middle.stream.printed = s.printed ++ early := record
    have pending_eq : (s.moveTo x y).stream.pending = [] := clean
    rw [printed_eq, pending_eq, List.append_nil, List.append_assoc] at law
    exact List.append_cancel_left law
  have shown : (middle.flushScreen (fbPrinter v)).screen =
      (text format args).foldl (fun screen c => screen.fbPrintChar v c)
        { s.screen with screenX := x, screenY := y } := by
    rw [← whole, List.foldl_append]
    exact congrArg (List.foldl _ · _) screen
  rw [moveTo, shown]

/-- For a text that stays on a row, with every backspace in it taking back
characters of the text, `printf_at` does what it should exactly when the format
ends, the buffer holds the text, nothing is pending, and the text does not use
the last cell of the screen unless the rest of the framebuffer is blank. -/
theorem framed_iff
    (v : Video) (s : Stdio Screen) (x y : Nat) (format : CString)
    (args : VaList) (layout : Layout)
    (fits : v.Fits)
    (numCols : s.screen.numCols = v.horizontalRes / v.width)
    (numRows : s.screen.numRows = v.verticalRes / v.height)
    (line : y < s.screen.numRows)
    (onRow : Runs.run (Layout.step v s.screen x y) .empty
      (text format args) = some layout) :
    s.Framed v x y layout.reach format args ↔
      paired format.text ∧ Fits 128 0 (ops format.text args) ∧
        s.pending = [] ∧
        (0 < layout.reach → x + layout.reach = s.screen.numCols →
          y + 1 = s.screen.numRows →
          ∀ offset, Screen.Inside v offset →
            ¬ Screen.TextCells v x y layout.reach offset →
            s.screen.pixels offset = s.screen.bg) := by
  have laidOut := Screen.onRow_text ⟨fits, numCols, numRows, line⟩ onRow
  have unchanged := laidOut.unchanged_iff
  constructor
  · intro framed
    have clean := framed.pending_eq_nil
    obtain ⟨after, printed, pixels, -⟩ := framed
    obtain ⟨ends, room⟩ :=
      printfAt_isSome_iff.mp (Option.isSome_iff_exists.mpr ⟨after, printed⟩)
    rw [pending_eq_nil_iff.mp clean] at room
    rw [printfAt_eq ends clean printed] at pixels
    exact ⟨ends, room, clean, unchanged.mp pixels⟩
  · rintro ⟨ends, room, clean, blank⟩
    rw [← pending_eq_nil_iff.mp clean] at room
    obtain ⟨after, printed⟩ := Option.isSome_iff_exists.mp
      (printfAt_isSome_iff.mpr ⟨ends, room⟩)
    have screen := printfAt_eq ends clean printed
    refine ⟨after, printed, ?_, ?_, ?_, ?_⟩
    · rw [screen]
      exact unchanged.mpr blank
    · rw [screen]
    · rw [screen]
    · obtain ⟨middle, -, rfl⟩ := Option.map_eq_some_iff.mp printed
      rw [clean]
      rfl

/-- Two letters, the second of which is taken back. -/
theorem framed_letters :
    (start (Screen.blankScreen 2)).Framed Screen.spacedVideo 0 1 2
      ⟨literal "ab\x08", by decide⟩ (.of []) :=
  (framed_iff Screen.spacedVideo (start (Screen.blankScreen 2)) 0 1
    ⟨literal "ab\x08", by decide⟩ (.of []) ⟨[ascii 'a'], 2⟩
    ⟨rfl, by decide, by decide, by decide, by decide, by decide, by decide⟩
    rfl rfl (by decide) (by decide +kernel)).mpr
    ⟨by decide, by decide +kernel, rfl, fun _ last => absurd last (by decide)⟩

/-- What `printf("k")` leaves. -/
def withPending : Stdio Screen :=
  { start (Screen.blankScreen 0) with
    fbBuf := ⟨fun _ => ascii 'k'⟩
    fbBufPos := 1 }

/-- Text that is pending is lost. -/
theorem not_framed_withPending :
    Screen.spacedVideo.Fits ∧
      Runs.run (Layout.step Screen.spacedVideo withPending.screen 1 1) .empty
        (text ⟨literal "a", by decide⟩ (.of [])) = some ⟨[ascii 'a'], 1⟩ ∧
      (withPending.printfAt Screen.spacedVideo 1 1 ⟨literal "a", by decide⟩
        (.of [])).isSome ∧
      ¬ withPending.Framed Screen.spacedVideo 1 1 1 ⟨literal "a", by decide⟩
        (.of []) := by
  refine ⟨⟨rfl, by decide, by decide, by decide, by decide, by decide,
    by decide⟩, by decide +kernel, by decide +kernel, fun framed => ?_⟩
  exact absurd framed.pending_eq_nil (by decide)

end Stdio
end PivotOs
