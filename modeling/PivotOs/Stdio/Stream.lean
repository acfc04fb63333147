import PivotOs.Library.OutputStream
import PivotOs.Stdio.Defs

/-!
# The output as a stream

Printing puts characters into a buffered stream: a format is taken apart into
pieces, and every piece puts its text and flushes the stream after a newline.
-/

universe u

namespace PivotOs
namespace Stdio

open OutputStream

variable {Screen : Type u} {charPrinter : Byte → Screen → Screen}
  {s : Stdio Screen} {c : Byte}

/-! ## Formats -/

/-- What a format consists of. -/
inductive Piece
  | char (c : Byte)
  | conversion (c : Byte) (arg : VaArg)

/-- The conversions that read an argument. -/
def conversions : List Byte := literal "scduxb"

/-- The pieces of a format with its arguments. -/
def pieces : List Byte → VaList → List Piece
  | [], _ => []
  | c :: format, args =>
      if c ≠ ascii '%' then .char c :: pieces format args
      else
        match format with
        | [] => []
        | c :: format =>
            .conversion c (args 0) ::
              pieces format (if c ∈ conversions then args.rest else args)

/-- No `%` of a format is its last character. -/
def paired : List Byte → Bool
  | [] => true
  | c :: format =>
      if c ≠ ascii '%' then paired format
      else
        match format with
        | [] => false
        | _ :: format => paired format

/-- The text of an argument, with these numerals for signed numbers. -/
def shown (signed : Word → List Byte) (c : Byte) (arg : VaArg) : List Byte :=
  if c = ascii 's' then arg.string.text
  else if c = ascii 'c' then [arg.word.setWidth 8]
  else if c = ascii 'd' then signed arg.word
  else if c = ascii 'u' then Libc.numeral 10 arg.word.toNat
  else if c = ascii 'x' then literal "0x" ++ Libc.numeral 16 arg.word.toNat
  else if c = ascii 'b' then literal "0b" ++ Libc.numeral 2 arg.word.toNat
  else []

/-- The text of a piece. -/
def Piece.text : Piece → List Byte
  | .char c => [c]
  | .conversion c arg => shown Libc.decimal c arg

/-- The flush after a newline. -/
def flushes (c : Byte) : List (Op Byte) :=
  if c = ascii '\n' then [.flush] else []

/-- What a piece does to the stream. -/
def Piece.ops : Piece → List (Op Byte)
  | .char c => .put c :: flushes c
  | .conversion c arg =>
      (shown (Libc.itoaText 10) c arg).map .put ++
        ((if c = ascii 'c' then flushes (arg.word.setWidth 8) else []) ++
          flushes c)

/-- The text of a format with its arguments. -/
def rendered (format : List Byte) (args : VaList) : List Byte :=
  (pieces format args).flatMap Piece.text

/-- What a format does to the stream. -/
def ops (format : List Byte) (args : VaList) : List (Op Byte) :=
  (pieces format args).flatMap Piece.ops

/-! ## Emitting -/

/-- The stream. -/
def stream (s : Stdio Screen) : State Byte :=
  ⟨s.printed, s.fbBuf.read s.fbBufPos⟩

variable (charPrinter) in
/-- The function does to the stream what the operations do, and prints on the
screen what it records. -/
structure Emits (function : Stdio Screen → Option (Stdio Screen))
    (ops : List (Op Byte)) : Prop where
  stream : ∀ s, (function s).map Stdio.stream =
    Runs.run (OutputStream.step 128) s.stream ops
  screen : ∀ s after, function s = some after → ∃ text,
    after.printed = s.printed ++ text ∧
    after.screen = text.foldl (fun screen c => charPrinter c screen) s.screen

theorem Emits.nil : Emits charPrinter some [] where
  stream := fun _ => rfl
  screen := by
    rintro s _ ⟨⟩
    exact ⟨[], by simp, rfl⟩

theorem Emits.bind
    {first second : Stdio Screen → Option (Stdio Screen)}
    {earlier later : List (Op Byte)}
    (emits : Emits charPrinter first earlier)
    (continues : Emits charPrinter second later) :
    Emits charPrinter (fun s => (first s).bind second) (earlier ++ later) where
  stream := by
    intro s
    rw [Runs.run_append_eq, ← emits.stream, Option.map_bind, Option.bind_map]
    exact congrArg _ (funext continues.stream)
  screen := by
    intro s after ran
    obtain ⟨middle, first, second⟩ := Option.bind_eq_some_iff.mp ran
    obtain ⟨early, printed, screen⟩ := emits.screen s middle first
    obtain ⟨late, further, shown⟩ := continues.screen middle after second
    refine ⟨early ++ late, ?_, ?_⟩
    · rw [further, printed, List.append_assoc]
    · rw [shown, screen, List.foldl_append]

theorem read_update (count : Nat) (value : Byte) (buffer : Buffer Byte 128) :
    (⟨Function.update buffer.item count value⟩ : Buffer Byte 128).read
      (count + 1) = buffer.read count ++ [value] := by
  have stored : Buffer.overlay count [value] buffer =
      ⟨Function.update buffer.item count value⟩ := by
    rw [Buffer.overlay_cons, Buffer.overlay_nil]
  rw [← stored]
  exact Buffer.read_overlay

theorem emits_putChar (c : Byte) :
    Emits charPrinter (Stdio.putChar c) [.put c] where
  stream := by
    intro s
    have length_eq : s.stream.pending.length = s.fbBufPos := by
      simp [Stdio.stream, Buffer.read]
    rw [putChar, Buffer.store, Runs.run, OutputStream.step, length_eq]
    split
    · rw [Option.map_some, Option.map_some, Option.bind_some, Runs.run,
        Stdio.stream, read_update]
      rfl
    · rfl
  screen := by
    intro s after put
    obtain ⟨buffer, -, rfl⟩ := Option.map_eq_some_iff.mp put
    exact ⟨[], by simp, rfl⟩

theorem emits_addString (text : List Byte) :
    Emits charPrinter (Stdio.addString text) (text.map .put) := by
  induction text with
  | nil => exact .nil
  | cons c text inductionHypothesis =>
      exact (emits_putChar c).bind inductionHypothesis

/-- The formatters store their text like a string. -/
theorem addString_eq (text : List Byte) (s : Stdio Screen) :
    s.addString text =
      (s.fbBuf.storeAll s.fbBufPos text).map fun fbBuf =>
        { s with fbBuf := fbBuf, fbBufPos := s.fbBufPos + text.length } := by
  induction text generalizing s with
  | nil => rfl
  | cons c text inductionHypothesis =>
      rw [addString, putChar, Buffer.storeAll_cons, Option.map_bind,
        Option.bind_map]
      refine congrArg _ (funext fun buffer => ?_)
      simp only [Function.comp_apply, inductionHypothesis, List.length_cons,
        Nat.add_assoc, Nat.add_comm 1]

theorem addItoa_eq (num : Word) (s : Stdio Screen) :
    s.addItoa num = s.addString (Libc.itoaText 10 num) := by
  rw [addItoa, Libc.itoa_decimal, Option.map_map, addString_eq]
  rfl

theorem addUltoa_eq
    {radix : Nat}
    (num : Word) (s : Stdio Screen)
    (large : 1 < radix) :
    s.addUltoa radix num = s.addString (Libc.numeral radix num.toNat) := by
  rw [addUltoa, Libc.ultoa_eq _ _ _ large, Option.map_map, addString_eq]
  rfl

theorem emits_flushAfter (c : Byte) :
    Emits charPrinter (fun s => some (s.flushAfter charPrinter c))
      (flushes c) where
  stream := by
    intro s
    unfold flushAfter flushes
    split
    · simp [Runs.run, OutputStream.step, flushScreen, Stdio.stream,
        Buffer.read]
    · rfl
  screen := by
    rintro s _ ⟨⟩
    unfold flushAfter
    split
    · exact ⟨s.fbBuf.read s.fbBufPos, rfl, rfl⟩
    · exact ⟨[], by simp, rfl⟩

/-! ## Conversions -/

variable (charPrinter) in
/-- Print an argument. -/
def showArg (c : Byte) (arg : VaArg) (s : Stdio Screen) :
    Option (Stdio Screen) :=
  (s.addString (shown (Libc.itoaText 10) c arg)).bind fun s =>
    if c = ascii 'c' then
      some (s.flushAfter charPrinter (arg.word.setWidth 8))
    else some s

theorem addString_append (first second : List Byte) (s : Stdio Screen) :
    s.addString (first ++ second) =
      (s.addString first).bind (addString second) := by
  induction first generalizing s with
  | nil => rfl
  | cons c first inductionHypothesis =>
      rw [List.cons_append, addString, addString, Option.bind_assoc]
      exact congrArg _ (funext inductionHypothesis)

/-- Every case of the `switch` prints its argument. -/
theorem convert_eq (c : Byte) (args : VaList) (s : Stdio Screen) :
    s.convert charPrinter c args =
      (s.showArg charPrinter c (args 0)).map fun s =>
        (if c ∈ conversions then args.rest else args, s) := by
  by_cases listed : c ∈ conversions
  · simp only [if_pos listed]
    have cases : c = ascii 's' ∨ c = ascii 'c' ∨ c = ascii 'd' ∨
        c = ascii 'u' ∨ c = ascii 'x' ∨ c = ascii 'b' := by
      simpa [conversions, literal] using listed
    rcases cases with rfl | rfl | rfl | rfl | rfl | rfl
    · simp [convert, showArg, shown, ascii]
    · simp [convert, showArg, shown, ascii, addString,
        Option.map_eq_bind, Option.bind_assoc]
    · simp [convert, showArg, shown, ascii, addItoa_eq]
    · simp [convert, showArg, shown, ascii, addUltoa_eq]
    · simp [convert, showArg, shown, ascii, addUltoa_eq, addString_append]
    · simp [convert, showArg, shown, ascii, addUltoa_eq, addString_append]
  · have others : c ≠ ascii 's' ∧ c ≠ ascii 'c' ∧ c ≠ ascii 'd' ∧
        c ≠ ascii 'u' ∧ c ≠ ascii 'x' ∧ c ≠ ascii 'b' := by
      simpa [conversions, literal] using listed
    simp [convert, showArg, shown, others, addString, listed]

theorem emits_showArg (c : Byte) (arg : VaArg) :
    Emits charPrinter (showArg charPrinter c arg)
      ((shown (Libc.itoaText 10) c arg).map .put ++
        if c = ascii 'c' then flushes (arg.word.setWidth 8) else []) := by
  refine (emits_addString _).bind ?_
  split
  · exact emits_flushAfter _
  · exact .nil

/-! ## Calls -/

section

variable {format : List Byte} {args : VaList}

theorem paired_plain (plain : c ≠ ascii '%') :
    paired (c :: format) = paired format := by
  cases format <;> simp [paired, plain]

theorem pieces_plain (plain : c ≠ ascii '%') :
    pieces (c :: format) args = .char c :: pieces format args := by
  cases format <;> simp [pieces, plain]

theorem vprintf_plain (plain : c ≠ ascii '%') :
    s.vprintf charPrinter (c :: format) args =
      (s.putChar c).bind fun s =>
        vprintf charPrinter format args (s.flushAfter charPrinter c) := by
  cases format <;> simp [vprintf, plain]

theorem pieces_percent :
    pieces (ascii '%' :: c :: format) args =
      .conversion c (args 0) ::
        pieces format (if c ∈ conversions then args.rest else args) := by
  simp [pieces]

theorem vprintf_percent :
    s.vprintf charPrinter (ascii '%' :: c :: format) args =
      (s.showArg charPrinter c (args 0)).bind fun s =>
        vprintf charPrinter format
          (if c ∈ conversions then args.rest else args)
          (s.flushAfter charPrinter c) := by
  rw [vprintf, if_neg (by simp), convert_eq, Option.bind_map]
  rfl

end

/-- `vprintf` prints the pieces of a format. -/
theorem emits_vprintf :
    ∀ (format : List Byte) (args : VaList), paired format →
      Emits charPrinter (vprintf charPrinter format args) (ops format args)
  | [], _, _ => .nil
  | c :: format, args, ends => by
      by_cases plain : c ≠ ascii '%'
      · rw [paired_plain plain] at ends
        have rest := emits_vprintf format args ends
        have all := (emits_putChar c).bind ((emits_flushAfter c).bind rest)
        have same : vprintf charPrinter (c :: format) args = _ :=
          funext fun s => vprintf_plain plain
        rw [same, ops, pieces_plain plain]
        exact all
      · obtain rfl := not_not.mp plain
        cases format with
        | nil => simp [paired] at ends
        | cons c format =>
            have ends : paired format := by simpa [paired] using ends
            have rest := emits_vprintf format
              (if c ∈ conversions then args.rest else args) ends
            have all := (emits_showArg c (args 0)).bind
              ((emits_flushAfter c).bind rest)
            have same : vprintf charPrinter (ascii '%' :: c :: format) args =
              _ := funext fun s => vprintf_percent
            rw [same, ops, pieces_percent, List.flatMap_cons, Piece.ops,
              ← List.append_assoc, List.append_assoc]
            exact all

/-- Calls do to the stream what they do one by one. -/
theorem emits_run
    {Call : Type*} {step : Stdio Screen → Call → Option (Stdio Screen)}
    {effect : Call → List (Op Byte)}
    (calls : List Call)
    (each : ∀ call ∈ calls,
      Emits charPrinter (fun s => step s call) (effect call)) :
    Emits charPrinter (fun s => Runs.run step s calls)
      (calls.flatMap effect) := by
  induction calls with
  | nil => exact .nil
  | cons call calls inductionHypothesis =>
      have rest := inductionHypothesis fun other member =>
        each other (List.mem_cons_of_mem call member)
      exact (each call List.mem_cons_self).bind rest

/-- A function returns exactly when the operations fit. -/
theorem Emits.isSome_iff
    {function : Stdio Screen → Option (Stdio Screen)} {effect : List (Op Byte)}
    (emits : Emits charPrinter function effect)
    (s : Stdio Screen) :
    (function s).isSome ↔ Fits 128 s.fbBufPos effect := by
  have length_eq : s.stream.pending.length = s.fbBufPos := by
    simp [Stdio.stream, Buffer.read]
  rw [← Option.isSome_map, emits.stream, run_isSome_iff, length_eq]

/-- What is collected in `fb_buf`. -/
def pending (s : Stdio Screen) : List Byte := s.fbBuf.read s.fbBufPos

/-- The piece does not print `INT64_MIN` as a signed number. -/
def Piece.NotLeast : Piece → Prop
  | .char _ => True
  | .conversion c arg => c = ascii 'd' → arg.word ≠ BitVec.intMin 64

instance : (piece : Piece) → Decidable piece.NotLeast
  | .char _ => isTrue trivial
  | .conversion _ _ => inferInstanceAs (Decidable (_ → _))

theorem written_flushes (c : Byte) : written (flushes c) = [] := by
  unfold flushes
  split <;> rfl

theorem Piece.written_ops
    {piece : Piece}
    (notLeast : piece.NotLeast) :
    written piece.ops = piece.text := by
  cases piece with
  | char c => simp [Piece.ops, Piece.text, written, written_flushes]
  | conversion c arg =>
      have shown_eq : shown (Libc.itoaText 10) c arg =
          shown Libc.decimal c arg := by
        unfold shown
        by_cases signed : c = ascii 'd'
        · rw [Libc.itoaText_eq (notLeast signed)]
        · simp only [if_neg signed]
      have unflushed : written (if c = ascii 'c'
          then flushes (arg.word.setWidth 8) else []) = [] := by
        split
        · exact written_flushes _
        · rfl
      simp [Piece.ops, Piece.text, written_flushes, unflushed, shown_eq]

/-- The text that a format puts is the format with its arguments. -/
theorem written_ops
    {format : List Byte} {args : VaList}
    (notLeast : ∀ piece ∈ pieces format args, piece.NotLeast) :
    written (ops format args) = rendered format args := by
  rw [ops, rendered, written_flatMap]
  exact List.flatMap_congr fun piece member =>
    Piece.written_ops (notLeast piece member)

/-- What calls of `printf` print and leave in the buffer is, in order, their
formats with the arguments. -/
theorem printed_and_pending
    (charPrinter : Byte → Screen → Screen) (s : Stdio Screen)
    (calls : List (CString × VaList))
    (ends : ∀ call ∈ calls, paired call.1.text)
    (notLeast : ∀ call ∈ calls, ∀ piece ∈ pieces call.1.text call.2,
      piece.NotLeast)
    (fits : Fits 128 s.fbBufPos
      (calls.flatMap fun call => ops call.1.text call.2)) :
    ∃ final text,
      Runs.run (fun s call => s.printf charPrinter call.1 call.2) s calls =
        some final ∧
      final.printed ++ final.pending = s.printed ++ s.pending ++
        calls.flatMap (fun call => rendered call.1.text call.2) ∧
      final.printed = s.printed ++ text ∧
      final.screen =
        text.foldl (fun screen c => charPrinter c screen) s.screen := by
  have emits := emits_run calls fun call member =>
    @emits_vprintf _ charPrinter call.1.text call.2 (ends call member)
  obtain ⟨final, ran⟩ := Option.isSome_iff_exists.mp
    ((emits.isSome_iff s).mpr fits)
  obtain ⟨text, printed, screen⟩ := emits.screen s final ran
  refine ⟨final, text, ran, ?_, printed, screen⟩
  have streamed : Runs.run (OutputStream.step 128) s.stream
      (calls.flatMap fun call => ops call.1.text call.2) =
        some final.stream := by
    rw [← emits.stream s]
    exact congrArg (Option.map Stdio.stream) ran
  have texts : (calls.flatMap fun call =>
      written (ops call.1.text call.2)) =
        calls.flatMap fun call => rendered call.1.text call.2 :=
    List.flatMap_congr fun call member => written_ops (notLeast call member)
  have law := run_written streamed
  rw [written_flatMap, texts] at law
  exact law

/-- Two calls, the second of which prints what the first has left. -/
theorem printed_and_pending_sample :
    let calls : List (CString × VaList) :=
      [(⟨literal "cpu %u: ", by decide⟩,
          .of [⟨3#64, ⟨[], List.not_mem_nil⟩⟩]),
        (⟨literal "%d at %x\nok", by decide⟩,
          .of [⟨-12#64, ⟨[], List.not_mem_nil⟩⟩,
            ⟨0x2F#64, ⟨[], List.not_mem_nil⟩⟩])]
    ∃ final, Runs.run (fun s call => s.printf (fun _ screen => screen)
          call.1 call.2) (start ()) calls = some final ∧
      final.printed ++ final.pending = literal "cpu 3: -12 at 0x2F\nok" := by
  intro calls
  obtain ⟨final, -, ran, law, -, -⟩ := printed_and_pending
    (fun _ screen => screen) (start ()) calls (by decide +kernel)
    (by decide +kernel) (by decide +kernel)
  refine ⟨final, ran, law.trans ?_⟩
  decide +kernel

end Stdio
end PivotOs
