import PivotOs.Library.LockOrder
import PivotOs.Stdio.Exclusion

/-!
# Printing in interrupts

The handlers of interrupts print too.  Most of them return to what they have
interrupted; that of the timer logs a message and goes on with the idle thread,
so what the processor was about to print is dropped.  The locks are always taken
in one order.  As long as no interrupt comes while its processor holds a lock
that the handler takes, what is left is printed to the end, and both locks are
free then.  After one that does, the processor waits for itself, and the output
never ends.
-/

universe u

namespace PivotOs
namespace Stdio

open SpinLock

/-- The order in which the locks are taken. -/
def Mutex.rank : Mutex → Nat
  | .logging => 0
  | .stdio => 1

/-- What happens on the processors: one goes on, the handler of an interrupt
makes some calls and returns to the interrupted code (`rtc_handler`,
`keyboard_handler`, `ipi_handler`), or the timer interrupts one.  The last has
what `schedule` prints: the value of `CPU`, and the register of the timer. -/
inductive KernelEvent (Cpu : Type u)
  | step (cpu : Cpu)
  | interrupt (cpu : Cpu) (requests : List Request)
  | timer (cpu : Cpu) (number : BitVec 8) (args : VaList)

variable {Cpu : Type u}

/-- The calls of `apic_periodic_handler`: `schedule` logs the first argument,
the register of the timer. -/
def periodicRequests (cpu : BitVec 8) (args : VaList) : List Request :=
  [.log cpu .verbose ⟨literal "SMP", by decide⟩ ⟨literal "%x", by decide⟩ args]

/-- The event on the locks.  `schedule` returns `ready_thread(KSMP.idle, false)`
after its message, and the idle thread prints nothing. -/
def KernelEvent.event : KernelEvent Cpu → Event Cpu Mutex
  | .step cpu => .step cpu
  | .interrupt cpu requests => .interrupt cpu (actionsOf requests)
  | .timer cpu number args =>
      .switch cpu (actionsOf (periodicRequests number args))

/-! ## The order of the locks -/

theorem through_flush {held : Mutex → Bool} :
    Through Mutex.rank held flushActions := fun _ disciplined => disciplined

theorem through_vprintf
    {held : Mutex → Bool}
    (format : CString) (args : VaList) :
    Through Mutex.rank held (vprintfActions format args) := by
  have body : Through Mutex.rank held
      ((Stdio.ops format.text args).flatMap opActions) := by
    refine Through.flatMap _ fun op _ => ?_
    cases op with
    | put c => exact fun _ disciplined => disciplined
    | flush => exact through_flush
  intro rest disciplined
  rw [vprintfActions, List.append_assoc]
  exact body _ disciplined

/-- `printf` may be called with the lock of `logging.c`. -/
theorem through_printf
    {held : Mutex → Bool}
    (format : CString) (args : VaList)
    (clear : held .stdio = false) :
    Through Mutex.rank held (printfActions format args) := by
  refine Through.lock (fun other holds => ?_) (through_vprintf format args)
  cases other with
  | logging => decide
  | stdio => rw [clear] at holds; cases holds

/-- Every call takes its locks in order. -/
theorem through_request (request : Request) :
    Through Mutex.rank (fun _ => false) request.actions := by
  cases request with
  | printf format args => exact through_printf format args rfl
  | printfAt x y format args =>
      have work : Through Mutex.rank
          (Function.update (fun _ => false) Mutex.stdio true) [.work] :=
        fun _ disciplined => disciplined
      have whole : Through Mutex.rank (fun _ => false)
          (.acquire Mutex.stdio :: _ ++ [.release .stdio]) :=
        Through.lock (fun _ holds => absurd holds Bool.false_ne_true)
          (work.append ((through_vprintf format args).append
            (through_flush.append work)))
      simpa [Request.actions] using whole
  | log cpu level target format args =>
      rw [Request.actions]
      split
      · exact fun _ disciplined => disciplined
      · have head := through_printf logHead (logHeadArgs cpu level target)
          (show Function.update (fun _ => false) Mutex.logging true .stdio =
            false from rfl)
        have newline := through_printf logEnd (.of [])
          (show Function.update (fun _ => false) Mutex.logging true .stdio =
            false from rfl)
        have whole : Through Mutex.rank (fun _ => false)
            (.acquire Mutex.logging :: _ ++ [.release .logging]) :=
          Through.lock (fun _ holds => absurd holds Bool.false_ne_true)
            (head.append ((through_vprintf format args).append newline))
        simpa using whole

theorem through_actionsOf (requests : List Request) :
    Through Mutex.rank (fun _ => false) (actionsOf requests) :=
  Through.flatMap requests fun request _ => through_request request

/-- A call that takes the lock of `logging.c` takes that of `stdio.c` too. -/
theorem stdio_mem_of_acquire
    {requests : List Request} {lock : Mutex}
    (member : Action.acquire lock ∈ actionsOf requests) :
    Action.acquire Mutex.stdio ∈ actionsOf requests := by
  cases lock with
  | stdio => exact member
  | logging =>
      obtain ⟨request, among, inside⟩ := List.mem_flatMap.mp member
      refine List.mem_flatMap.mpr ⟨request, among, ?_⟩
      have outside : ∀ (format : CString) (args : VaList),
          Action.acquire Mutex.logging ∉ vprintfActions format args := by
        intro format args member
        simp only [vprintfActions, List.mem_append, List.mem_cons,
          List.mem_flatMap, reduceCtorEq, false_or, List.not_mem_nil, or_false]
          at member
        obtain ⟨op, -, member⟩ := member
        cases op with
        | put c => simp [opActions] at member
        | flush => simp [opActions, flushActions] at member
      cases request with
      | printf format args => simp [Request.actions, printfActions]
      | printfAt x y format args => simp [Request.actions]
      | log cpu level target format args =>
          rw [Request.actions] at inside ⊢
          split at inside
          · exact absurd inside List.not_mem_nil
          · next printed =>
              rw [if_neg printed]
              simp [printfActions]

/-- The calls of a handler keep to the order of the locks, and what they do not
take is below what they take. -/
theorem handles_actionsOf (requests : List Request) :
    Handles Mutex.rank (actionsOf requests) where
  disciplined := (through_actionsOf requests).disciplined
  above := by
    intro lock other outside member
    cases lock with
    | stdio => exact absurd (stdio_mem_of_acquire member) outside
    | logging =>
        cases other with
        | logging => exact absurd member outside
        | stdio => decide

/-- The message of `schedule` takes both locks. -/
theorem acquire_mem_periodic
    (number : BitVec 8) (args : VaList) (lock : Mutex) :
    Action.acquire lock ∈ actionsOf (periodicRequests number args) := by
  have printed : ¬ LogLevel.Skipped .verbose := by decide
  cases lock <;>
    simp [actionsOf, periodicRequests, Request.actions, printed, printfActions]

theorem handled_event (event : KernelEvent Cpu) :
    event.event.Handled Mutex.rank := by
  cases event with
  | step cpu => trivial
  | interrupt cpu requests => exact handles_actionsOf requests
  | timer cpu number args =>
      exact ⟨(through_actionsOf _).disciplined, acquire_mem_periodic number args⟩

/-! ## Runs -/

/-- The timer may interrupt a processor that holds no lock. -/
theorem safe_timer_iff
    (s : System Cpu Mutex) (cpu : Cpu) (number : BitVec 8) (args : VaList) :
    s.Safe (KernelEvent.timer cpu number args).event ↔
      ∀ lock, ¬ s.Holds cpu lock :=
  ⟨fun safe lock => safe lock (acquire_mem_periodic number args lock),
    fun free lock _ => free lock⟩

variable [DecidableEq Cpu]

/-- The processors before they make their calls. -/
def kernelStart (programs : Cpu → List Request) : System Cpu Mutex :=
  SpinLock.start fun cpu => actionsOf (programs cpu)

/-- Some events. -/
def kernelRun (s : System Cpu Mutex) (events : List (KernelEvent Cpu)) :
    Option (System Cpu Mutex) :=
  Runs.run happen s (events.map KernelEvent.event)

/-- No interrupt makes its processor wait for a lock of its own. -/
def SafeRun (s : System Cpu Mutex) (events : List (KernelEvent Cpu)) : Prop :=
  Runs.Along happen System.Safe s (events.map KernelEvent.event)

/-- Whatever the processors print, and in whichever order they go on and are
interrupted: if no handler takes a lock that its processor holds, every schedule
that gives each processor a turn as often as there are actions left comes to an
end with both locks free; otherwise no schedule comes to an end, whatever
happens. -/
theorem printing_ends_or_hangs
    [Fintype Cpu]
    (programs : Cpu → List Request) (events : List (KernelEvent Cpu))
    (final : System Cpu Mutex)
    (ran : kernelRun (kernelStart programs) events = some final) :
    (SafeRun (kernelStart programs) events →
      ∀ rounds : List (List Cpu), (∀ round ∈ rounds, ∀ cpu, cpu ∈ round) →
        remaining final ≤ rounds.length →
          (rounds.foldl turns final).Finished ∧
            ∀ lock, (rounds.foldl turns final).taken lock = false) ∧
      (¬ SafeRun (kernelStart programs) events →
        ∀ later last, kernelRun final later = some last → ¬ last.Finished) := by
  have owned : Owned Mutex.rank (kernelStart programs) fun _ _ => false :=
    owned_start fun cpu => (through_actionsOf (programs cpu)).disciplined
  have handled : ∀ (events : List (KernelEvent Cpu)),
      ∀ event ∈ events.map KernelEvent.event, event.Handled Mutex.rank := by
    intro events event member
    obtain ⟨kernelEvent, -, rfl⟩ := List.mem_map.mp member
    exact handled_event kernelEvent
  obtain ⟨ends, hangs⟩ := owned.run (handled events) ran
  refine ⟨fun safe rounds fair enough => ?_, fun clash later last goesOn => ?_⟩
  · obtain ⟨_, still⟩ := ends safe
    have bounded : ∀ lock, Mutex.rank lock ≤ 1 := by
      intro lock
      cases lock <;> decide
    exact still.finished_of_rounds bounded fair enough
  · obtain ⟨lock, doomed⟩ := hangs clash
    exact (doomed.run (handled later) goesOn).not_finished

/-- Two processors print. -/
def twoPrinters : Fin 2 → List Request :=
  fun _ => samplePrograms 1

/-- The timer interrupts one when the other has taken the lock. -/
def tickOutside : List (KernelEvent (Fin 2)) :=
  [.step 0, .timer 1 1#8 (.of [])]

/-- The timer interrupts one just when it has taken the lock. -/
def tickInside : List (KernelEvent (Fin 2)) :=
  [.step 0, .timer 0 0#8 (.of [])]

theorem tickOutside_safe : SafeRun (kernelStart twoPrinters) tickOutside := by
  refine ⟨trivial, fun next stepped => ⟨?_, fun _ _ => trivial⟩⟩
  obtain rfl := Option.some.inj stepped
  refine (safe_timer_iff _ _ _ _).mpr fun lock => ?_
  cases lock <;> decide

theorem tickInside_not_safe :
    ¬ SafeRun (kernelStart twoPrinters) tickInside := by
  intro safe
  obtain ⟨-, later⟩ := safe
  have interrupt := (later _ rfl).1
  exact (safe_timer_iff _ _ _ _).mp interrupt .stdio (by decide)

/-- After the first tick the other processor prints to the end; after the second
one neither does. -/
theorem printing_ends_or_hangs_sample :
    (∃ final, kernelRun (kernelStart twoPrinters) tickOutside = some final ∧
      ((List.replicate (remaining final) [0, 1]).foldl turns final).Finished ∧
      ∀ lock, ((List.replicate (remaining final) [0, 1]).foldl turns
        final).taken lock = false) ∧
    ∃ final, kernelRun (kernelStart twoPrinters) tickInside = some final ∧
      ∀ later last, kernelRun final later = some last → ¬ last.Finished := by
  obtain ⟨outside, ranOutside⟩ := Option.isSome_iff_exists.mp
    (show (kernelRun (kernelStart twoPrinters) tickOutside).isSome by decide)
  obtain ⟨inside, ranInside⟩ := Option.isSome_iff_exists.mp
    (show (kernelRun (kernelStart twoPrinters) tickInside).isSome by decide)
  refine ⟨⟨outside, ranOutside, ?_⟩, inside, ranInside, ?_⟩
  · refine (printing_ends_or_hangs twoPrinters tickOutside outside
      ranOutside).1 tickOutside_safe _ (fun round member cpu => ?_) ?_
    · obtain rfl := List.eq_of_mem_replicate member
      exact (show ∀ cpu : Fin 2, cpu ∈ [0, 1] by decide) cpu
    · rw [List.length_replicate]
  · exact (printing_ends_or_hangs twoPrinters tickInside inside
      ranInside).2 tickInside_not_safe

end Stdio
end PivotOs
