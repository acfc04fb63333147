import PivotOs.Stdio.Stream

/-!
# The bounds of the buffer

`vprintf` stores wherever `fb_buf_pos` points, and `fb_buf` has 128 bytes.  So
printing stays inside of it exactly when no more than 128 characters are
printed between two newlines of the formats.
-/

universe u

namespace PivotOs
namespace Stdio

open OutputStream

variable {Screen : Type u} {charPrinter : Byte → Screen → Screen}
  {s : Stdio Screen}

/-- The calls of `vprintf` that a call makes. -/
def Call.passes : Call → List (CString × VaList)
  | .printf format args => [(format, args)]
  | .log cpu level target format args =>
      if level.Skipped then []
      else
        [(logHead, logHeadArgs cpu level target), (format, args),
          (logEnd, .of [])]

/-- What a call does to the stream. -/
def Call.ops (call : Call) : List (Op Byte) :=
  call.passes.flatMap fun pass => Stdio.ops pass.1.text pass.2

theorem step_eq (call : Call) :
    s.step charPrinter call =
      Runs.run (fun s pass => s.vprintf charPrinter pass.1.text pass.2) s
        call.passes := by
  cases call with
  | printf format args =>
      simp [Stdio.step, Call.passes, Stdio.printf, Runs.run]
  | log cpu level target format args =>
      by_cases skipped : level.Skipped
      · simp [Stdio.step, Stdio.log, Call.passes, skipped]
      · simp [Stdio.step, Stdio.log, Call.passes, skipped, Stdio.printf,
          Runs.run]

/-- Behind an unpaired `%` the loop reads on past the end of the format. -/
theorem vprintf_of_not_paired :
    ∀ (format : List Byte) (args : VaList) (s : Stdio Screen),
      ¬ paired format → s.vprintf charPrinter format args = none
  | [], _, _, unpaired => absurd rfl unpaired
  | c :: format, args, s, unpaired => by
      by_cases plain : c ≠ ascii '%'
      · rw [paired_plain plain] at unpaired
        rw [vprintf_plain plain, Option.bind_eq_none_iff]
        exact fun _ _ => vprintf_of_not_paired format args _ unpaired
      · obtain rfl := not_not.mp plain
        cases format with
        | nil => simp [vprintf]
        | cons c format =>
            have unpaired : ¬ paired format := by
              simpa [paired] using unpaired
            rw [vprintf_percent, Option.bind_eq_none_iff]
            exact fun _ _ => vprintf_of_not_paired format _ _ unpaired

/-- When several calls of `vprintf` return, no format ends in an unpaired `%`. -/
theorem paired_of_passes
    {passes : List (CString × VaList)} {after : Stdio Screen}
    (ran : Runs.run (fun s pass =>
      s.vprintf charPrinter pass.1.text pass.2) s passes = some after) :
    ∀ pass ∈ passes, paired pass.1.text := by
  intro pass member
  obtain ⟨early, late, printed⟩ := Runs.run_taken ran member
  by_contra unpaired
  rw [vprintf_of_not_paired _ _ _ unpaired] at printed
  cases printed

theorem paired_of_calls
    {calls : List Call}
    (returns : (Runs.run (step charPrinter) s calls).isSome) :
    ∀ call ∈ calls, ∀ pass ∈ call.passes, paired pass.1.text := by
  intro call listed
  obtain ⟨final, ran⟩ := Option.isSome_iff_exists.mp returns
  obtain ⟨before, after, stepped⟩ := Runs.run_taken ran listed
  rw [step_eq] at stepped
  exact paired_of_passes stepped

theorem emits_step
    (call : Call)
    (ends : ∀ pass ∈ call.passes, paired pass.1.text) :
    Emits charPrinter (fun s => s.step charPrinter call) call.ops := by
  have same : (fun s => step charPrinter s call) = _ :=
    funext fun s => step_eq call
  rw [same]
  exact emits_run call.passes fun pass member =>
    emits_vprintf pass.1.text pass.2 (ends pass member)

/-- Calls from an empty buffer stay inside of it and of their formats exactly
when no format ends in an unpaired `%` and no more than 128 characters are
printed between two flushes. -/
theorem output_in_bounds_iff
    (charPrinter : Byte → Screen → Screen) (screen : Screen)
    (calls : List Call) :
    (Runs.run (step charPrinter) (start screen) calls).isSome ↔
      (∀ call ∈ calls, ∀ pass ∈ call.passes, paired pass.1.text) ∧
        ShortStretches 128 (calls.flatMap Call.ops) := by
  have fits_iff : (∀ call ∈ calls, ∀ pass ∈ call.passes, paired pass.1.text) →
      ((Runs.run (step charPrinter) (start screen) calls).isSome ↔
        Fits 128 0 (calls.flatMap Call.ops)) := fun ends =>
    (emits_run calls fun call member =>
      emits_step call (ends call member)).isSome_iff (start screen)
  constructor
  · intro returns
    have ends := paired_of_calls returns
    exact ⟨ends, fits_iff_shortStretches.mp ((fits_iff ends).mp returns)⟩
  · rintro ⟨ends, stretches⟩
    exact (fits_iff ends).mpr (fits_iff_shortStretches.mpr stretches)

/-- A text of 129 characters is stored past the end of the buffer, and a
format that ends in `%` is read past its end. -/
theorem output_out_of_bounds :
    Runs.run (step fun _ screen => screen) (start ())
        [.printf ⟨literal "%s", by decide⟩
          (.of [⟨0#64, ⟨List.replicate 129 (ascii 'a'), by decide⟩⟩])] =
      none ∧
    Runs.run (step fun _ screen => screen) (start ())
        [.printf ⟨literal "100%", by decide⟩ (.of [])] = none := by
  constructor
  · exact Option.isNone_iff_eq_none.mp (by decide +kernel)
  · exact Option.isNone_iff_eq_none.mp (by decide +kernel)

end Stdio
end PivotOs
