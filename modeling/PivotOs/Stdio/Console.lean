import PivotOs.Framebuffer.Picture
import PivotOs.Stdio.PrintfAt

/-!
# The console

`stdio.c`, `logging.c` and `framebuffer.c` together are a terminal behind a
buffer.  A call puts the text of its formats into the buffer, and a newline of a
format sends what is in it to the terminal.  Whatever is called, the framebuffer is
the picture of this terminal, `fb_buf` holds what the buffer holds, and a call
fails when the buffer is full or a format ends in an unpaired `%`.
-/

namespace PivotOs

open OutputStream

/-- A call that prints, in the text or at a place. -/
inductive ConsoleCall
  | text (call : Stdio.Call)
  | printfAt (x y : Nat) (format : CString) (args : VaList)

/-- One call, with the framebuffer as the screen. -/
def ConsoleCall.exec (v : Video) (s : Stdio Screen) :
    ConsoleCall → Option (Stdio Screen)
  | .text call => s.step (Stdio.fbPrinter v) call
  | .printfAt x y format args => s.printfAt v x y format args

/-- The place is a cell of the screen. -/
def ConsoleCall.OnScreen (v : Video) : ConsoleCall → Prop
  | .text _ => True
  | .printfAt x y _ _ => Screen.OnScreen v x y

/-! ## A terminal behind a buffer -/

/-- A terminal, and the characters that have not been sent to it. -/
structure Console where
  /-- The terminal. -/
  terminal : Terminal Symbol
  /-- The characters in the buffer. -/
  pending : List Byte

namespace Console

variable (v : Video) (fg bg : BitVec 32)

/-- Put characters into the buffer and send them to the terminal. -/
def emit (ops : List (Op Byte)) (console : Console) : Option Console :=
  (Runs.run (OutputStream.step 128) ⟨[], console.pending⟩ ops).map fun stream =>
    { terminal := stream.printed.foldl (Picture.print v fg bg) console.terminal
      pending := stream.pending }

/-- What the calls of `vprintf` print, in order. -/
def passes (calls : List (CString × VaList)) (console : Console) :
    Option Console :=
  if ∀ call ∈ calls, Stdio.paired call.1.text then
    console.emit v fg bg (calls.flatMap fun call =>
      Stdio.ops call.1.text call.2)
  else none

/-- Send what is left in the buffer. -/
def flush (console : Console) : Console where
  terminal := console.pending.foldl (Picture.print v fg bg) console.terminal
  pending := []

/-- Move the cursor to a cell. -/
def moveTo (x y : Nat) (console : Console) : Option Console :=
  if inside : x < console.terminal.cols ∧ y < console.terminal.rows then
    some { console with
      terminal := console.terminal.moveTo x y inside.1 inside.2 }
  else none

/-- One call.  A text at a place is sent at once, and then the cursor goes back to
where it was. -/
def step (console : Console) : ConsoleCall → Option Console
  | .text call => console.passes v fg bg call.passes
  | .printfAt x y format args =>
      (console.moveTo x y).bind fun moved =>
      (moved.passes v fg bg [(format, args)]).bind fun after =>
      (after.flush v fg bg).moveTo console.terminal.x console.terminal.y

/-! ## The console is this terminal -/

/-- The framebuffer shows the terminal, and `fb_buf` holds the rest. -/
structure Shown (memory : Nat → BitVec 32) (s : Stdio Screen)
    (console : Console) : Prop where
  /-- The picture. -/
  displays : Picture.Displays v fg bg memory s.screen console.terminal
  /-- The buffer. -/
  pending : s.pending = console.pending

variable {v fg bg} {memory : Nat → BitVec 32} {s : Stdio Screen}
  {console : Console}

/-- What emits characters emits them to the terminal. -/
theorem Shown.emit
    {function : Stdio Screen → Option (Stdio Screen)} {ops : List (Op Byte)}
    (shown : Shown v fg bg memory s console)
    (fits : v.Fits)
    (emits : Stdio.Emits (Stdio.fbPrinter v) function ops) :
    Option.Rel (Shown v fg bg memory) (function s)
      (console.emit v fg bg ops) := by
  have streamed : (function s).map Stdio.stream =
      (Runs.run (OutputStream.step 128) ⟨[], console.pending⟩ ops).map
        fun final => ⟨s.printed ++ final.printed, final.pending⟩ := by
    rw [emits.stream, ← run_received, ← shown.pending]
    rfl
  rw [Console.emit]
  cases ran : function s with
  | none =>
      rw [ran] at streamed
      rw [Option.map_eq_none_iff.mp streamed.symm]
      exact .none
  | some after =>
      rw [ran] at streamed
      obtain ⟨final, eq, same⟩ := Option.map_eq_some_iff.mp streamed.symm
      obtain ⟨printed, pending⟩ := State.mk.inj same
      obtain ⟨text, more, screen⟩ := emits.screen s after ran
      obtain rfl := List.append_cancel_left (printed.trans more)
      rw [eq]
      refine .some ⟨?_, pending.symm⟩
      rw [screen]
      exact shown.displays.foldl fits final.printed

/-- So do several calls of `vprintf`. -/
theorem Shown.passes
    (shown : Shown v fg bg memory s console)
    (fits : v.Fits)
    (calls : List (CString × VaList)) :
    Option.Rel (Shown v fg bg memory)
      (Runs.run (fun s call =>
        s.vprintf (Stdio.fbPrinter v) call.1.text call.2) s calls)
      (console.passes v fg bg calls) := by
  rw [Console.passes]
  split
  · next ends =>
      exact shown.emit fits (Stdio.emits_run calls fun call member =>
        Stdio.emits_vprintf call.1.text call.2 (ends call member))
  · next unpaired =>
      have fails : Runs.run (fun s call =>
          s.vprintf (Stdio.fbPrinter v) call.1.text call.2) s calls = none :=
        Option.eq_none_iff_forall_ne_some.mpr fun _ ran =>
          unpaired (Stdio.paired_of_passes ran)
      rw [fails]
      exact .none

/-- `flush_screen` sends what is left. -/
theorem Shown.flush
    (shown : Shown v fg bg memory s console)
    (fits : v.Fits) :
    Shown v fg bg memory (s.flushScreen (Stdio.fbPrinter v))
      (console.flush v fg bg) where
  displays := by
    rw [Console.flush, ← shown.pending]
    exact shown.displays.foldl fits s.pending
  pending := rfl

/-- The cursor moves to a cell of the screen. -/
theorem Shown.moveTo
    {x y : Nat}
    (shown : Shown v fg bg memory s console)
    (cell : Screen.OnScreen v x y) :
    ∃ moved, console.moveTo x y = some moved ∧
      Shown v fg bg memory (s.moveTo x y) moved := by
  have inside : x < console.terminal.cols ∧ y < console.terminal.rows := by
    rw [shown.displays.cols, shown.displays.rows]
    exact ⟨cell.column, cell.line⟩
  exact ⟨_, dif_pos inside, shown.displays.moveTo inside.1 inside.2,
    shown.pending⟩

/-- Every call does to the console what it does to the terminal. -/
theorem Shown.step
    (shown : Shown v fg bg memory s console)
    (fits : v.Fits)
    (call : ConsoleCall)
    (cell : call.OnScreen v) :
    Option.Rel (Shown v fg bg memory) (call.exec v s)
      (console.step v fg bg call) := by
  cases call with
  | text call =>
      rw [ConsoleCall.exec, Stdio.step_eq]
      exact shown.passes fits call.passes
  | printfAt x y format args =>
      obtain ⟨moved, eq, start⟩ := shown.moveTo cell
      have printed := start.passes fits [(format, args)]
      have single : Runs.run (fun s call =>
          s.vprintf (Stdio.fbPrinter v) call.1.text call.2) (s.moveTo x y)
            [(format, args)] =
          (s.moveTo x y).vprintf (Stdio.fbPrinter v) format.text args :=
        Option.bind_fun_some _
      rw [single] at printed
      rw [ConsoleCall.exec, Console.step, eq, Option.bind_some]
      change Option.Rel _ (((s.moveTo x y).vprintf (Stdio.fbPrinter v)
        format.text args).map _) _
      generalize (s.moveTo x y).vprintf _ _ _ = middle at printed
      generalize moved.passes v fg bg [(format, args)] = after at printed
      cases printed with
      | none => exact .none
      | some related =>
          -- The cursor goes back to where the terminal has its own.
          obtain ⟨back, returned, final⟩ := (related.flush fits).moveTo
            shown.displays.cursor
          rw [shown.displays.screenX, shown.displays.screenY] at returned
          rw [Option.bind_some, returned]
          exact .some final

/-- From `init_framebuffer` on, whatever calls are made, the framebuffer is the
picture of the terminal, the rest of the memory is as it was, `fb_buf` holds what
the buffer of the terminal holds, and a call fails when the terminal refuses it. -/
theorem console_shown
    (v : Video) (screen : Screen) (calls : List ConsoleCall)
    (fits : v.Fits)
    (cells : ∀ call ∈ calls, call.OnScreen v) :
    Option.Rel
      (fun (final : Stdio Screen) (console : Console) =>
        final.screen.pixels =
          Picture.render v screen.bg screen.pixels console.terminal ∧
        final.screen.screenX = console.terminal.x ∧
        final.screen.screenY = console.terminal.y ∧
        final.pending = console.pending)
      (Runs.run (ConsoleCall.exec v) (Stdio.start (screen.initFramebuffer v))
        calls)
      (Runs.run (Console.step v screen.fg screen.bg)
        ⟨Picture.blank v fits, []⟩ calls) := by
  have initially : Shown v screen.fg screen.bg screen.pixels
      (Stdio.start (screen.initFramebuffer v)) ⟨Picture.blank v fits, []⟩ :=
    ⟨Picture.displays_initFramebuffer screen fits, rfl⟩
  have runs := Runs.run_rel (Shown v screen.fg screen.bg screen.pixels)
    (fun _ _ call member shown => shown.step fits call (cells call member))
    initially
  generalize Runs.run (ConsoleCall.exec v) _ calls = final at runs ⊢
  generalize Runs.run (Console.step v screen.fg screen.bg) _ calls = console
    at runs ⊢
  cases runs with
  | none => exact .none
  | some shown =>
      exact .some ⟨shown.displays.pixels, shown.displays.screenX,
        shown.displays.screenY, shown.pending⟩

/-- A line, a character at a place, and a text without a newline. -/
def sampleCalls : List ConsoleCall :=
  [.text (.printf ⟨literal "ok\n", by decide⟩ (.of [])),
    .printfAt 2 0 ⟨literal "%c", by decide⟩
      (fun _ => ⟨0x61#64, ⟨literal "", by decide⟩⟩),
    .text (.printf ⟨literal "x", by decide⟩ (.of []))]

theorem spacedVideo_fits : Screen.spacedVideo.Fits :=
  ⟨rfl, by decide, by decide, by decide, by decide, by decide, by decide⟩

theorem console_shown_sample :
    ∃ (final : Stdio Screen) (console : Console),
      Runs.run (ConsoleCall.exec Screen.spacedVideo)
        (Stdio.start (Screen.sampleScreen.initFramebuffer Screen.spacedVideo))
        sampleCalls = some final ∧
      console.terminal.cell 1 0 =
        some ⟨ascii 'k', Screen.sampleScreen.fg⟩ ∧
      console.terminal.cell 2 0 =
        some ⟨ascii 'a', Screen.sampleScreen.fg⟩ ∧
      console.terminal.y = 1 ∧ console.pending = literal "x" ∧
      final.screen.pixels = Picture.render Screen.spacedVideo
        Screen.sampleScreen.bg Screen.sampleScreen.pixels console.terminal ∧
      final.screen.screenX = console.terminal.x ∧
      final.screen.screenY = console.terminal.y ∧
      final.pending = console.pending := by
  have cells : ∀ call ∈ sampleCalls, call.OnScreen Screen.spacedVideo := by
    intro call member
    simp only [sampleCalls, List.mem_cons, List.not_mem_nil, or_false] at member
    rcases member with rfl | rfl | rfl
    · trivial
    · exact ⟨by decide, by decide⟩
    · trivial
  have shown := console_shown Screen.spacedVideo Screen.sampleScreen
    sampleCalls spacedVideo_fits cells
  have observed : (Runs.run (Console.step Screen.spacedVideo
      Screen.sampleScreen.fg Screen.sampleScreen.bg)
        ⟨Picture.blank Screen.spacedVideo spacedVideo_fits, []⟩ sampleCalls).map
          (fun console => (console.terminal.cell 1 0, console.terminal.cell 2 0,
            console.terminal.y, console.pending)) =
        some (some ⟨ascii 'k', Screen.sampleScreen.fg⟩,
          some ⟨ascii 'a', Screen.sampleScreen.fg⟩, 1, literal "x") := by
    decide +kernel
  obtain ⟨console, ran, facts⟩ := Option.map_eq_some_iff.mp observed
  simp only [Prod.mk.injEq] at facts
  rw [ran] at shown
  generalize eq : Runs.run (ConsoleCall.exec Screen.spacedVideo) _ _ = result
    at shown ⊢
  cases shown with
  | some related =>
      exact ⟨_, console, rfl, facts.1, facts.2.1, facts.2.2.1, facts.2.2.2,
        related⟩

end Console
end PivotOs
