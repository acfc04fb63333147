import PivotOs.Library.SpinLock
import PivotOs.Stdio.Bounds

/-!
# Printing on several processors

`stdio.c` and `logging.c` have a lock each.  `printf` and `printf_at` hold the
lock of `stdio.c` while they print.  `log` holds its own lock, but between two
calls of `printf` it calls `vprintf` without the lock of `stdio.c`.
-/

universe u

namespace PivotOs
namespace Stdio

open SpinLock

/-- The two flags called `mutex`. -/
inductive Mutex
  | stdio
  | logging
  deriving DecidableEq

/-- A call that prints, on one of several processors. -/
inductive Request
  | printf (format : CString) (args : VaList)
  | printfAt (x y : Nat) (format : CString) (args : VaList)
  | log (cpu : BitVec 8) (level : LogLevel) (target format : CString)
      (args : VaList)

/-- `flush_screen`. -/
def flushActions : List (Action Mutex) := [.enter, .work, .leave]

/-- What `vprintf` does for an operation on the stream. -/
def opActions : OutputStream.Op Byte → List (Action Mutex)
  | .put _ => [.work]
  | .flush => flushActions

/-- `vprintf`. -/
def vprintfActions (format : CString) (args : VaList) : List (Action Mutex) :=
  .enter :: (Stdio.ops format.text args).flatMap opActions ++ [.leave]

/-- `printf`. -/
def printfActions (format : CString) (args : VaList) : List (Action Mutex) :=
  .acquire .stdio :: vprintfActions format args ++ [.release .stdio]

/-- What a call does; `printf_at` moves the cursor before it prints, and back
afterwards. -/
def Request.actions : Request → List (Action Mutex)
  | .printf format args => printfActions format args
  | .printfAt _ _ format args =>
      .acquire .stdio :: .work ::
        (vprintfActions format args ++
          (flushActions ++ [.work, .release .stdio]))
  | .log cpu level target format args =>
      if level.Skipped then []
      else
        .acquire .logging ::
          (printfActions logHead (logHeadArgs cpu level target) ++
            (vprintfActions format args ++
              (printfActions logEnd (.of []) ++ [.release .logging])))

/-- A call of `log` that is not skipped. -/
def Request.Logs : Request → Prop
  | .log _ level _ _ _ => ¬ level.Skipped
  | _ => False

/-- A call of `printf` or `printf_at`. -/
def Request.Prints : Request → Prop
  | .log _ _ _ _ _ => False
  | _ => True

/-- What processors do that make these calls. -/
def actionsOf (requests : List Request) : List (Action Mutex) :=
  requests.flatMap Request.actions

/-! ## Locks -/

theorem keeps_flush {lock : Mutex} {depth : Nat} :
    Keeps lock true depth flushActions :=
  fun _ guarded => ⟨rfl, guarded⟩

theorem keeps_vprintf
    {lock : Mutex} {depth : Nat}
    (format : CString) (args : VaList) :
    Keeps lock true depth (vprintfActions format args) := by
  intro rest guarded
  have body : Keeps lock true (depth + 1)
      ((Stdio.ops format.text args).flatMap opActions) := by
    refine Keeps.flatMap _ fun op _ => ?_
    cases op with
    | put c => exact fun _ guarded => guarded
    | flush => exact keeps_flush
  rw [vprintfActions, List.append_assoc]
  exact ⟨rfl, body _ guarded⟩

/-- `printf` keeps to the lock of `stdio.c`. -/
theorem keeps_printf (format : CString) (args : VaList) :
    Keeps .stdio false 0 (printfActions format args) := by
  intro rest guarded
  rw [printfActions, List.append_assoc]
  exact ⟨rfl, keeps_vprintf format args _ ⟨rfl, rfl, guarded⟩⟩

/-- With the lock of `logging.c`, `printf` keeps to that one. -/
theorem keeps_printf_logging (format : CString) (args : VaList) :
    Keeps .logging true 0 (printfActions format args) := by
  intro rest guarded
  rw [printfActions, List.append_assoc]
  exact keeps_vprintf format args _ guarded

/-- Calls that do not log keep to the lock of `stdio.c`. -/
theorem keeps_of_not_logs
    {request : Request}
    (silent : ¬ request.Logs) :
    Keeps .stdio false 0 request.actions := by
  cases request with
  | printf format args => exact keeps_printf format args
  | printfAt x y format args =>
      intro rest guarded
      have after : Guarded Mutex.stdio true 0
          (flushActions ++ ([.work, .release .stdio] ++ rest)) :=
        keeps_flush _ ⟨rfl, rfl, guarded⟩
      have whole := keeps_vprintf format args _ after
      simp only [Request.actions, List.cons_append, List.append_assoc]
      exact ⟨rfl, whole⟩
  | log cpu level target format args =>
      have skipped : level.Skipped := not_not.mp silent
      rw [Request.actions, if_pos skipped]
      exact .nil

/-- Calls that do not print keep to the lock of `logging.c`. -/
theorem keeps_of_not_prints
    {request : Request}
    (silent : ¬ request.Prints) :
    Keeps .logging false 0 request.actions := by
  cases request with
  | printf format args => exact absurd trivial silent
  | printfAt x y format args => exact absurd trivial silent
  | log cpu level target format args =>
      rw [Request.actions]
      split
      · exact .nil
      · intro rest guarded
        simp only [List.cons_append, List.append_assoc]
        exact ⟨rfl, keeps_printf_logging _ _ _ (keeps_vprintf _ _ _
          (keeps_printf_logging _ _ _ ⟨rfl, rfl, guarded⟩))⟩

/-- Calls that neither log nor print do nothing. -/
theorem actions_eq_nil
    {request : Request}
    (silent : ¬ request.Logs)
    (quiet : ¬ request.Prints) :
    request.actions = [] := by
  cases request with
  | printf format args => exact absurd trivial quiet
  | printfAt x y format args => exact absurd trivial quiet
  | log cpu level target format args =>
      rw [Request.actions, if_pos (not_not.mp silent)]

/-! ## Without waiting -/

theorem neutral_vprintf
    {taken : Mutex → Bool}
    (format : CString) (args : VaList) :
    Neutral taken (vprintfActions format args) := by
  refine Neutral.inside (Neutral.flatMap _ fun op _ => ?_)
  cases op with
  | put c => exact fun _ => rfl
  | flush => exact fun _ => rfl

theorem neutral_printf
    {taken : Mutex → Bool}
    (format : CString) (args : VaList)
    (clear : taken .stdio = false) :
    Neutral taken (printfActions format args) :=
  (neutral_vprintf format args).lock clear

/-- Every call returns when the locks are free. -/
theorem neutral_actions (request : Request) :
    Neutral (fun _ => false) request.actions := by
  cases request with
  | printf format args => exact neutral_printf format args rfl
  | printfAt x y format args =>
      have work : Neutral (Function.update (fun _ => false) Mutex.stdio true)
          [.work] := fun _ => rfl
      have flush : Neutral (Function.update (fun _ => false) Mutex.stdio true)
          flushActions := fun _ => rfl
      have whole := (work.append ((neutral_vprintf format args).append
        (flush.append work))).lock rfl
      simpa [Request.actions] using whole
  | log cpu level target format args =>
      rw [Request.actions]
      split
      · exact fun _ => rfl
      · have whole : Neutral (fun _ => false)
            (.acquire Mutex.logging :: _ ++ [.release .logging]) :=
          ((neutral_printf logHead (logHeadArgs cpu level target) rfl).append
            ((neutral_vprintf format args).append
              (neutral_printf logEnd (.of []) rfl))).lock rfl
        simpa using whole

/-- `printf` and `printf_at` enter the region when the lock of `stdio.c` is
free. -/
theorem prints_enters
    {request : Request}
    (prints : request.Prints) :
    ∃ front back, request.actions = front ++ back ∧
      ∀ (taken : Mutex → Bool) (depth : Nat), taken .stdio = false →
        alone (taken, depth) front =
          some (Function.update taken .stdio true, depth + 1) := by
  cases request with
  | printf format args =>
      refine ⟨[.acquire .stdio, .enter], _, rfl, fun taken depth clear => ?_⟩
      simp [alone, Runs.run, effect, clear]
  | printfAt x y format args =>
      refine ⟨[.acquire .stdio, .work, .enter], _, rfl,
        fun taken depth clear => ?_⟩
      simp [alone, Runs.run, effect, clear]
  | log cpu level target format args => exact absurd prints id

/-- `log` enters the region without the lock of `stdio.c`. -/
theorem logs_enters
    {request : Request}
    (logs : request.Logs) :
    ∃ front back, request.actions = front ++ back ∧
      ∀ depth, alone ((fun _ => false), depth) front =
        some (Function.update (fun _ => false) .logging true, depth + 1) := by
  cases request with
  | printf format args => exact absurd logs id
  | printfAt x y format args => exact absurd logs id
  | log cpu level target format args =>
      refine ⟨.acquire .logging ::
        (printfActions logHead (logHeadArgs cpu level target) ++ [.enter]),
        (Stdio.ops format.text args).flatMap opActions ++ [.leave] ++
          (printfActions logEnd (.of []) ++ [.release .logging]), ?_,
        fun depth => ?_⟩
      · simp [Request.actions, show ¬ level.Skipped from logs, vprintfActions]
      · have locked : alone ((fun _ => false), depth)
            [.acquire Mutex.logging] =
              some (Function.update (fun _ => false) .logging true, depth) :=
          rfl
        have head := neutral_printf logHead (logHeadArgs cpu level target)
          (show Function.update (fun _ => false) Mutex.logging true .stdio =
            false from rfl) depth
        rw [← List.singleton_append, alone_append locked, alone_append head]
        rfl

/-! ## Several processors -/

/-- A processor that logs and another that prints may be inside together. -/
theorem not_exclusive
    {Cpu : Type u} [DecidableEq Cpu]
    {programs : Cpu → List Request} {cpu other : Cpu} {call print : Request}
    (different : cpu ≠ other)
    (called : call ∈ programs cpu)
    (logs : call.Logs)
    (printed : print ∈ programs other)
    (prints : print.Prints) :
    ∃ schedule final,
      Runs.run SpinLock.step (SpinLock.start fun cpu => actionsOf (programs cpu))
        schedule = some final ∧ ¬ final.Exclusive := by
  obtain ⟨before, after, program⟩ := List.append_of_mem called
  obtain ⟨early, late, otherProgram⟩ := List.append_of_mem printed
  obtain ⟨logFront, logBack, logActions, logEnters⟩ := logs_enters logs
  obtain ⟨front, back, printActions, enters⟩ := prints_enters prints
  have returns : ∀ requests,
      Neutral (fun _ => false) (actionsOf requests) := fun requests =>
    Neutral.flatMap requests fun request _ => neutral_actions request
  set s : System Cpu Mutex :=
    SpinLock.start fun cpu => actionsOf (programs cpu) with s_eq
  have todo : s.todo cpu =
      actionsOf before ++ (logFront ++ (logBack ++ actionsOf after)) := by
    simp [s_eq, SpinLock.start, actionsOf, program, logActions]
  have otherTodo : s.todo other =
      actionsOf early ++ (front ++ (back ++ actionsOf late)) := by
    simp [s_eq, SpinLock.start, actionsOf, otherProgram, printActions]
  -- Both processors come to the two calls, and then the first enters without
  -- the lock that the other takes.
  obtain ⟨toPrint, s₁, ran₁, taken₁, depth₁, todo₁, same₁⟩ :=
    exists_run_alone rfl rfl otherTodo (returns early 0)
  obtain ⟨toLog, s₂, ran₂, taken₂, depth₂, todo₂, same₂⟩ :=
    exists_run_alone taken₁ ((same₁ cpu different).1)
      ((same₁ cpu different).2.trans todo) (returns before 0)
  obtain ⟨intoLog, s₃, ran₃, taken₃, depth₃, -, same₃⟩ :=
    exists_run_alone taken₂ depth₂ todo₂ (logEnters 0)
  have away := same₂ other (Ne.symm different)
  have still := same₃ other (Ne.symm different)
  obtain ⟨intoPrint, s₄, ran₄, -, depth₄, -, same₄⟩ :=
    exists_run_alone taken₃ (still.1.trans (away.1.trans depth₁))
      (still.2.trans (away.2.trans todo₁)) (enters _ 0 rfl)
  refine ⟨toPrint ++ (toLog ++ (intoLog ++ intoPrint)), s₄,
    Runs.run_append ran₁ (Runs.run_append ran₂ (Runs.run_append ran₃ ran₄)),
    fun exclusive => different (exclusive cpu other ?_ ?_)⟩
  · rw [(same₄ cpu different).1, depth₃]
    exact Nat.zero_lt_one
  · rw [depth₄]
    exact Nat.zero_lt_one

/-- In every interleaving there is one processor at a time inside `vprintf`
and `flush_screen`, exactly when no processor logs while another prints. -/
theorem exclusive_iff
    {Cpu : Type u} [DecidableEq Cpu] (programs : Cpu → List Request) :
    (∀ (schedule : List Cpu) (final : System Cpu Mutex),
      Runs.run SpinLock.step (SpinLock.start fun cpu => actionsOf (programs cpu))
        schedule = some final → final.Exclusive) ↔
      ∀ cpu other, cpu ≠ other → ∀ call ∈ programs cpu, call.Logs →
        ∀ print ∈ programs other, ¬ print.Prints := by
  constructor
  · intro exclusive cpu other different call called logs print printed prints
    obtain ⟨schedule, final, ran, clash⟩ :=
      not_exclusive different called logs printed prints
    exact clash (exclusive schedule final ran)
  · intro apart schedule final ran
    by_cases logging : ∃ cpu, ∃ call ∈ programs cpu, call.Logs
    · obtain ⟨cpu, call, called, logs⟩ := logging
      by_cases printing : ∃ print ∈ programs cpu, print.Prints
      · -- The processor logs and prints, so the others do neither.
        obtain ⟨print, printed, prints⟩ := printing
        refine exclusive_of_single cpu (fun other different => ?_) ran
        have nothing : actionsOf (programs other) = [] := by
          refine List.flatMap_eq_nil_iff.mpr fun request member => ?_
          exact actions_eq_nil
            (fun logs => apart other cpu different request member logs print
              printed prints)
            (apart cpu other (Ne.symm different) call called logs request
              member)
        rw [nothing]
        exact List.not_mem_nil
      · -- Nobody prints.
        refine exclusive_of_guarded .logging (fun other => ?_) ran
        refine (Keeps.flatMap _ fun request member => ?_).guarded
        refine keeps_of_not_prints fun prints => ?_
        by_cases same : other = cpu
        · exact printing ⟨request, same ▸ member, prints⟩
        · exact apart cpu other (Ne.symm same) call called logs request member
            prints
    · -- Nobody logs.
      refine exclusive_of_guarded .stdio (fun other => ?_) ran
      refine (Keeps.flatMap _ fun request member => ?_).guarded
      exact keeps_of_not_logs fun logs =>
        logging ⟨other, request, member, logs⟩

/-- One processor logs a message, and another prints a text. -/
def samplePrograms : Fin 2 → List Request
  | 0 => [.log 0#8 .info ⟨literal "VMM", by decide⟩
      ⟨literal "ready", by decide⟩ (.of [])]
  | 1 => [.printf ⟨literal "Hello", by decide⟩ (.of [])]

/-- After the head of the line, both are inside `vprintf`. -/
theorem log_beside_printf :
    ∃ final, Runs.run SpinLock.step
        (SpinLock.start fun cpu => actionsOf (samplePrograms cpu))
        (List.replicate 21 0 ++ [1, 1]) = some final ∧
      final.depth 0 = 1 ∧ final.depth 1 = 1 ∧ ¬ final.Exclusive := by
  have depths : (Runs.run SpinLock.step
      (SpinLock.start fun cpu => actionsOf (samplePrograms cpu))
      (List.replicate 21 0 ++ [1, 1])).map
        (fun final => (final.depth 0, final.depth 1)) = some (1, 1) := by
    decide +kernel
  obtain ⟨final, ran, both⟩ := Option.map_eq_some_iff.mp depths
  obtain ⟨first, second⟩ := Prod.mk.inj both
  refine ⟨final, ran, first, second, fun exclusive => ?_⟩
  have same := exclusive 0 1 (by omega) (by omega)
  exact absurd same (by decide)

end Stdio
end PivotOs
