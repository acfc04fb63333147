import PivotOs.Scheduler.Sleepers

/-!
# Registers across interrupts

A thread is interrupted with some registers and is resumed with a frame that
`schedule` returns.  The frames are kept in `ef` of the threads, and the page
table of a processor is changed with its thread.  The kernel takes the number of
its processor from `r14`, which the interrupt stubs leave as the interrupted code
had it.  Where that code has its own processor's number there, and threads are
woken on the processor to whose list they go, every thread gets its own
registers and its own page table back, whatever ran in between.  The idle thread
gets its page table back, but not its registers: nothing saves them, and it
starts again.
-/

namespace PivotOs

open LinkedList

/-- `CPU`, a `uint8_t` in the register `r14`. -/
def CpuStatus.cpu (status : CpuStatus) : Nat := (status.r14.setWidth 8).toNat

namespace Scheduler

variable {s after : Scheduler} {lists final : Queue → List Nat}
  {cpu thread : Nat}

/-! ## Frames and page tables -/

/-- `*ef` of every thread. -/
def saved (s : Scheduler) (thread : Nat) : CpuStatus := (s.mem thread).saved

/-- `ef` of every thread. -/
def ef (s : Scheduler) (thread : Nat) : Nat := (s.mem thread).ef

/-- The value of `cr3` for every thread. -/
def root (s : Scheduler) (thread : Nat) : Word :=
  paddr (s.mem thread).vmm.p4Tbl

/-- `cr3` of every processor. -/
def cr3 (s : Scheduler) (cpu : Nat) : Word := (s.cpus cpu).cr3

/-- What a processor runs when its interrupt is over. -/
def runs (s : Scheduler) (cpu : Nat) : Nat :=
  if s.cur cpu = 0 then s.idle else s.cur cpu

/-- The saved frames and the page tables in use become these, and no frame is
moved. -/
structure Framed (s after : Scheduler) (saved : Nat → CpuStatus)
    (cr3 : Nat → Word) : Prop where
  saved : after.saved = saved
  ef : after.ef = s.ef
  root : after.root = s.root
  cr3 : after.cr3 = cr3

/-- Neither frames nor page tables change. -/
abbrev KeepsFrames (s after : Scheduler) : Prop :=
  Framed s after s.saved s.cr3

namespace Framed

variable {saved : Nat → CpuStatus} {cr3 : Nat → Word}

@[refl] theorem refl (s : Scheduler) : KeepsFrames s s := ⟨rfl, rfl, rfl, rfl⟩

theorem trans
    {last : Scheduler} {laterSaved : Nat → CpuStatus} {laterCr3 : Nat → Word}
    (first : Framed s after saved cr3)
    (second : Framed after last laterSaved laterCr3) :
    Framed s last laterSaved laterCr3 where
  saved := second.saved
  ef := second.ef.trans first.ef
  root := second.root.trans first.root
  cr3 := second.cr3

/-- Something without frames afterwards. -/
theorem keep
    {last : Scheduler}
    (first : Framed s after saved cr3)
    (second : KeepsFrames after last) :
    Framed s last saved cr3 := by
  have composed := first.trans second
  rwa [first.saved, first.cr3] at composed

/-- A change of a thread but for its registers. -/
theorem onThread
    {change : ThreadT → ThreadT}
    (saved : ∀ record, (change record).saved = record.saved)
    (ef : ∀ record, (change record).ef = record.ef)
    (vmm : ∀ record, (change record).vmm = record.vmm) :
    KeepsFrames s (s.onThread thread change) := by
  refine ⟨?_, ?_, ?_, rfl⟩
  all_goals
    funext other
    by_cases same : other = thread
    · subst same
      simp [Scheduler.saved, Scheduler.ef, Scheduler.root, mem_onThread, saved,
        ef, vmm]
    · simp [Scheduler.saved, Scheduler.ef, Scheduler.root, mem_onThread, same]

/-- A change of a processor but for its page table. -/
theorem onCpu
    {change : CpuData → CpuData}
    (keeps : ∀ data, (change data).cr3 = data.cr3) :
    KeepsFrames s (s.onCpu cpu change) := by
  refine ⟨rfl, rfl, rfl, ?_⟩
  funext other
  by_cases same : other = cpu
  · subst same
    simp [Scheduler.cr3, cpus_onCpu, keeps]
  · simp [Scheduler.cr3, cpus_onCpu, same]

theorem saveFrame (thread : Nat) (frame : CpuStatus) :
    Framed s (s.saveFrame thread frame)
      (Function.update s.saved thread frame) s.cr3 := by
  refine ⟨?_, ?_, ?_, rfl⟩
  all_goals
    funext other
    by_cases same : other = thread
    · subst same
      simp [Scheduler.saveFrame, Scheduler.saved, Scheduler.ef, Scheduler.root,
        mem_onThread]
    · simp [Scheduler.saveFrame, Scheduler.saved, Scheduler.ef, Scheduler.root,
        mem_onThread, same]

theorem loadCr3 (cpu : Nat) (root : Word) :
    Framed s (s.loadCr3 cpu root) s.saved (Function.update s.cr3 cpu root) := by
  refine ⟨rfl, rfl, rfl, ?_⟩
  funext other
  by_cases same : other = cpu
  · subst same
    simp [Scheduler.loadCr3, Scheduler.cr3, cpus_onCpu]
  · simp [Scheduler.loadCr3, Scheduler.cr3, cpus_onCpu, same]

theorem setNext (target : Nat) : KeepsFrames s (s.setNext thread target) :=
  onThread (fun _ => rfl) (fun _ => rfl) fun _ => rfl

theorem setStatus (status : ThreadStatus) :
    KeepsFrames s (s.setStatus thread status) :=
  onThread (fun _ => rfl) (fun _ => rfl) fun _ => rfl

theorem markReady : KeepsFrames s (s.markReady thread) :=
  onThread (fun _ => rfl) (fun _ => rfl) fun _ => rfl

theorem countTick : KeepsFrames s (s.countTick thread) :=
  onThread (fun _ => rfl) (fun _ => rfl) fun _ => rfl

theorem setThreads (first : Nat) : KeepsFrames s (s.setThreads cpu first) :=
  onCpu fun _ => rfl

theorem setWakeups (first : Nat) : KeepsFrames s (s.setWakeups cpu first) :=
  onCpu fun _ => rfl

theorem setCur : KeepsFrames s (s.setCur cpu thread) := onCpu fun _ => rfl

theorem setTicks (ticks : Nat) : KeepsFrames s (s.setTicks cpu ticks) :=
  onCpu fun _ => rfl

theorem schedulerAddThread : KeepsFrames s (s.schedulerAddThread thread) := by
  have counted : KeepsFrames s (s.countThread (leastLoaded s.cpus s.numCpus)) :=
    onCpu fun _ => rfl
  exact (counted.keep (setNext _)).keep (setThreads _)

theorem removeFrom
    (removed : s.removeFrom cpu thread = some after) :
    KeepsFrames s after := by
  rw [Scheduler.removeFrom, Option.map_eq_some_iff] at removed
  obtain ⟨result, unlinked, rfl⟩ := removed
  rw [schedulerRemoveThread, Option.map_eq_some_iff] at unlinked
  obtain ⟨found, -, rfl⟩ := unlinked
  dsimp only
  split
  · exact setThreads _
  · split
    · exact setThreads _
    · exact (setNext _).keep (setThreads _)

theorem insertWakeup
    (inserted : s.insertWakeup cpu thread = some after) :
    KeepsFrames s after := by
  rw [Scheduler.insertWakeup, Option.map_eq_some_iff] at inserted
  obtain ⟨found, -, rfl⟩ := inserted
  dsimp only
  split
  · exact (setNext _).keep (setNext _)
  · exact (setWakeups _).keep (setNext _)

/-- Putting a thread away saves its registers. -/
theorem switchAway
    {frame : CpuStatus}
    (switched : s.switchAway cpu frame = some after) :
    Framed s after (Function.update s.saved (s.cur cpu) frame) s.cr3 := by
  have stored : Framed s (s.saveFrame (s.cur cpu) frame)
      (Function.update s.saved (s.cur cpu) frame) s.cr3 :=
    saveFrame _ frame
  by_cases gone : s.status (s.cur cpu) = .dead
  · rw [switchAway_of_dead frame gone] at switched
    obtain ⟨removed, unlinked, rfl⟩ := Option.map_eq_some_iff.mp switched
    exact (stored.keep (removeFrom unlinked)).keep setCur
  by_cases asleep : s.status (s.cur cpu) = .sleep
  · rw [switchAway_of_sleep frame asleep] at switched
    obtain ⟨removed, unlinked, inserted⟩ :=
      Option.bind_eq_some_iff.mp switched
    exact ((stored.keep setCur).keep (removeFrom unlinked)).keep
      (insertWakeup inserted)
  · rw [switchAway_of_ready frame gone asleep] at switched
    obtain rfl := Option.some.inj switched
    have marked : KeepsFrames s (s.setStatus (s.cur cpu) .ready) :=
      setStatus .ready
    have framed := marked.trans (saveFrame (s.cur cpu) frame)
    rwa [marked.saved, marked.cr3] at framed

/-- Making a thread ready returns its frame and loads its page table. -/
theorem readyThread (cpu thread : Nat) (safety : Bool) :
    (s.readyThread cpu thread safety).1 = s.ef thread ∧
      Framed s (s.readyThread cpu thread safety).2 s.saved
        (Function.update s.cr3 cpu (s.root thread)) := by
  set chosen := (if safety then s.setCur cpu thread else s).markReady thread
    with chosen_eq
  have kept : KeepsFrames s chosen := by
    have first : KeepsFrames s (if safety then s.setCur cpu thread else s) := by
      split
      · exact setCur
      · exact refl s
    exact first.keep markReady
  have loaded := kept.trans (loadCr3 cpu (chosen.root thread))
  rw [kept.saved, kept.cr3] at loaded
  refine ⟨congrFun kept.ef thread, ?_⟩
  rw [← kept.root]
  exact loaded

end Framed

theorem cur_readyThread (cpu thread : Nat) (safety : Bool) :
    (s.readyThread cpu thread safety).2.cur cpu =
      if safety then thread else s.cur cpu := by
  cases safety with
  | true =>
      simp [readyThread, markReady, loadCr3, setCur, onThread, cur, cpus_onCpu]
  | false =>
      simp [readyThread, markReady, loadCr3, onThread, cur, cpus_onCpu]

theorem idle_readyThread (cpu thread : Nat) (safety : Bool) :
    (s.readyThread cpu thread safety).2.idle = s.idle := by
  cases safety with
  | true => rfl
  | false => rfl

/-- A thread that is made current runs. -/
theorem runs_readyThread_thread
    (cpu : Nat)
    (notNull : thread ≠ 0) :
    (s.readyThread cpu thread true).2.runs cpu = thread := by
  rw [runs, cur_readyThread, if_pos rfl, if_neg notNull]

/-- The idle thread runs where no thread is current. -/
theorem runs_readyThread_idle (stopped : s.cur cpu = 0) :
    (s.readyThread cpu s.idle false).2.runs cpu = s.idle := by
  rw [runs, cur_readyThread, idle_readyThread, if_neg Bool.false_ne_true,
    if_pos stopped]

/-- An interrupt goes on with the frame of what runs then, under its page
table. -/
def Switches (cpu address : Nat) (s after : Scheduler)
    (saved : Nat → CpuStatus) : Prop :=
  address = s.ef (after.runs cpu) ∧
    Framed s after saved
      (Function.update s.cr3 cpu (s.root (after.runs cpu)))

theorem switches_thread
    (cpu : Nat)
    (notNull : thread ≠ 0) :
    Switches cpu (s.readyThread cpu thread true).1 s
      (s.readyThread cpu thread true).2 s.saved := by
  rw [Switches, runs_readyThread_thread cpu notNull]
  exact Framed.readyThread cpu thread true

theorem switches_idle (stopped : s.cur cpu = 0) :
    Switches cpu (s.readyThread cpu s.idle false).1 s
      (s.readyThread cpu s.idle false).2 s.saved := by
  rw [Switches, runs_readyThread_idle stopped]
  exact Framed.readyThread cpu s.idle false

theorem Switches.of_keeps
    {middle : Scheduler} {address : Nat} {saved : Nat → CpuStatus}
    {before : Nat → CpuStatus}
    (framed : Framed s middle before s.cr3)
    (switches : Switches cpu address middle after saved) :
    Switches cpu address s after saved := by
  obtain ⟨address_eq, second⟩ := switches
  rw [framed.ef] at address_eq
  rw [framed.cr3, framed.root] at second
  exact ⟨address_eq, framed.trans second⟩

/-- What `pick` goes on with. -/
theorem Inv.pick_switches (cpu : Nat) (inv : s.Inv lists) :
    Switches cpu (s.pick cpu).1 s (s.pick cpu).2 s.saved := by
  rw [Scheduler.pick]
  split
  · next due =>
      have moved : KeepsFrames s
          ((s.schedulerAddThread (s.cpus cpu).wakeups).setWakeups cpu
            (s.next (s.cpus cpu).wakeups)) :=
        Framed.schedulerAddThread.keep (Framed.setWakeups _)
      have switches := (switches_thread cpu due.1).of_keeps moved
      rwa [moved.saved] at switches
  · dsimp only
    split
    · next notNull => exact switches_thread cpu notNull
    · next null =>
        refine switches_idle ?_
        have empty := (inv.schedulerNextThread cpu).1 (not_not.mp null)
        by_contra running
        have member := inv.own cpu running
        rw [empty] at member
        simp at member

/-- What `schedule` goes on with: the interrupted frame again, or that of what
runs then. -/
theorem Inv.schedule_switches
    {curStatus address : Nat} {frame : CpuStatus}
    (inv : s.Inv lists)
    (scheduled : s.schedule cpu curStatus frame = some (address, after)) :
    (s.cur cpu ≠ 0 ∧ address = curStatus ∧ after.cur = s.cur ∧
        KeepsFrames s after) ∨
      Switches cpu address s after
        (if s.cur cpu = 0 then s.saved
          else Function.update s.saved (s.cur cpu) frame) := by
  have current : (s.cpus cpu).cur = s.cur cpu := rfl
  rw [Scheduler.schedule] at scheduled
  split at scheduled
  · next empty =>
      have noThreads : lists (.threads cpu) = [] :=
        (inv.holds.spells (.threads cpu)).eq_nil_iff.mpr empty.1
      have stopped : s.cur cpu = 0 := by
        by_contra running
        have member := inv.own cpu running
        rw [noThreads] at member
        simp at member
      obtain ⟨rfl, rfl⟩ := Prod.mk.inj (Option.some.inj scheduled).symm
      rw [if_pos stopped]
      exact .inr (switches_idle stopped)
  rw [current] at scheduled
  by_cases stopped : s.cur cpu = 0
  · rw [if_pos stopped] at scheduled
    obtain ⟨rfl, rfl⟩ := Prod.mk.inj (Option.some.inj scheduled).symm
    rw [if_pos stopped]
    exact .inr (inv.pick_switches cpu)
  rw [if_neg stopped] at scheduled
  obtain ⟨relinked, counted, -, -⟩ := keepsRunning_spec cpu inv.holds
  have kept := inv.of_relinked relinked counted
  have framed : KeepsFrames s (s.keepsRunning cpu).2 := by
    rw [keepsRunning]
    split
    · exact Framed.countTick
    · exact Framed.refl s
  dsimp only at scheduled
  split at scheduled
  · obtain ⟨rfl, rfl⟩ := Prod.mk.inj (Option.some.inj scheduled).symm
    exact .inl ⟨stopped, rfl, relinked.cur, framed⟩
  · obtain ⟨middle, switched, picked⟩ := Option.map_eq_some_iff.mp scheduled
    have busy : (s.keepsRunning cpu).2.cur cpu ≠ 0 := by
      rwa [relinked.cur]
    obtain ⟨same, between, switchedTo, holds, away, -⟩ :=
      kept.switchAway frame busy
    obtain rfl := Option.some.inj (switched.symm.trans switchedTo)
    have stored := framed.trans (Framed.switchAway switched)
    rw [framed.saved, framed.cr3, relinked.cur] at stored
    have switches :=
      ((away.inv kept busy holds).pick_switches cpu).of_keeps stored
    rw [picked, stored.saved] at switches
    rw [if_neg stopped]
    exact .inr switches

/-! ## Whole runs -/

/-- What happens on a processor: a timer interrupt and the system calls of what
runs there, with the registers of the code that is interrupted, and the addition
of a thread. -/
inductive Event
  | timer (processor ticks curStatus : Nat) (frame : CpuStatus)
  | sleep (processor : Nat) (status : CpuStatus)
  | dead (processor : Nat) (status : CpuStatus)
  | add (thread : Nat)

/-- The call that the kernel makes of it.  It takes the number in `r14` for that
of the processor. -/
def Event.call : Event → Call
  | .timer _ ticks curStatus frame => .timer frame.cpu ticks curStatus frame
  | .sleep _ status => .sleep status.cpu status
  | .dead _ status => .dead status.cpu
  | .add thread => .add thread

/-- The interrupted code has the number of its processor in `r14`. -/
def Event.Numbered : Event → Prop
  | .timer processor _ _ frame => frame.cpu = processor
  | .sleep processor status => status.cpu = processor
  | .dead processor status => status.cpu = processor
  | .add _ => True

instance : (event : Event) → Decidable event.Numbered
  | .timer processor _ _ frame => decEq frame.cpu processor
  | .sleep processor status => decEq status.cpu processor
  | .dead processor status => decEq status.cpu processor
  | .add _ => isTrue trivial

/-- A scheduler with the registers that every thread had when it was last
interrupted, and with its frame when it has not run yet. -/
structure Watched where
  scheduler : Scheduler
  context : Nat → CpuStatus
  /-- The frame that the idle thread was made with. -/
  entry : CpuStatus

namespace Watched

/-- Nothing has been interrupted. -/
def start (s : Scheduler) : Watched := ⟨s, s.saved, s.saved s.idle⟩

/-- What runs on a processor is interrupted with some registers, be it a thread
of its list or the idle thread. -/
def interrupted (w : Watched) (processor : Nat) (frame : CpuStatus) : Watched :=
  { w with
    context := Function.update w.context (w.scheduler.runs processor) frame }

/-- The same registers where the scheduler is another one. -/
def become (w : Watched) (after : Scheduler) : Watched :=
  { w with scheduler := after }

/-- What is interrupted by an event. -/
def record (w : Watched) : Event → Watched
  | .timer processor _ _ frame => w.interrupted processor frame
  | _ => w

/-- One step. -/
def step (w : Watched) (event : Event) : Option Watched :=
  (w.scheduler.step event.call).map (w.record event).become

/-- The registers that a thread is to go on with: those it was interrupted with.
The idle thread starts again. -/
def resumes (w : Watched) (thread : Nat) : CpuStatus :=
  if thread = w.scheduler.idle then w.entry else w.context thread

theorem interrupted_become
    {w : Watched}
    (same : after.runs cpu = w.scheduler.runs cpu)
    (frame : CpuStatus) :
    (w.become after).interrupted cpu frame =
      (w.interrupted cpu frame).become after := by
  rw [interrupted, become, same]
  rfl

theorem resumes_become
    {w : Watched}
    (idle : after.idle = w.scheduler.idle) :
    (w.become after).resumes thread = w.resumes thread := by
  change (if thread = after.idle then w.entry else w.context thread) = _
  rw [idle, resumes]

theorem resumes_interrupted
    {w : Watched} {frame : CpuStatus}
    (different : thread ≠ w.scheduler.runs cpu) :
    (w.interrupted cpu frame).resumes thread = w.resumes thread := by
  change (if thread = w.scheduler.idle then w.entry
    else Function.update w.context (w.scheduler.runs cpu) frame thread) = _
  rw [Function.update_of_ne different, resumes]

/-- The interrupted code has the number of its processor in `r14`, and there is
one processor, or the threads that are woken go to its own list. -/
def Orderly (w : Watched) (event : Event) : Prop :=
  event.Numbered ∧
    (w.scheduler.numCpus = 1 ∨ w.scheduler.WakesHere event.call)

instance (w : Watched) (event : Event) : Decidable (w.Orderly event) :=
  inferInstanceAs (Decidable (_ ∧ _))

/-- An interrupt of the timer returns, and it returns to the interrupted
registers when the processor goes on with what it ran, or to the frame of what
runs then, which holds the registers that this has to go on with.  The
processor has the page table of what runs then. -/
def Restores (w : Watched) : Event → Prop
  | .timer processor ticks curStatus frame =>
      processor < w.scheduler.numCpus →
        ∃ address after,
          (w.scheduler.setTicks frame.cpu ticks).schedule frame.cpu curStatus
              frame =
            some (address, after) ∧
          (address = curStatus ∧
              w.scheduler.runs processor = after.runs processor ∨
            address = after.ef (after.runs processor) ∧
              after.saved (after.runs processor) =
                (w.interrupted processor frame).resumes
                  (after.runs processor)) ∧
          after.cr3 processor = after.root (after.runs processor)
  | _ => True

end Watched

/-- The frames and page tables of a scheduler are those of its threads. -/
structure Contexts (w : Watched) : Prop where
  /-- What does not run has the registers that it is to go on with in its
  frame. -/
  saved : ∀ thread,
    (∀ cpu, w.scheduler.cur cpu ≠ 0 → w.scheduler.cur cpu ≠ thread) →
      w.scheduler.saved thread = w.resumes thread
  /-- What runs has its page table. -/
  cr3 : ∀ cpu, w.scheduler.cur cpu ≠ 0 →
    w.scheduler.cr3 cpu = w.scheduler.root (w.scheduler.cur cpu)

/-- Another processor goes on with its thread. -/
def Elsewhere (cpu : Nat) (s after : Scheduler) : Prop :=
  after.idle = s.idle ∧ ∀ other, other ≠ cpu → after.cur other = s.cur other

theorem Away.elsewhere (away : Away cpu s after lists final) :
    Elsewhere cpu s after := by
  cases away with
  | ready alive awake effect =>
      exact ⟨effect.idle, fun other _ => congrFun effect.cur other⟩
  | dead gone effect =>
      refine ⟨effect.idle, fun other different => ?_⟩
      rw [effect.cur, Function.update_of_ne different]
  | sleep nodes others asleep effect parts before behind =>
      refine ⟨effect.idle, fun other different => ?_⟩
      rw [effect.cur, Function.update_of_ne different]

theorem Picked.elsewhere (picked : Picked cpu s after lists final) :
    Elsewhere cpu s after := by
  cases picked with
  | wake thread others parts due effect =>
      refine ⟨effect.idle, fun other different => ?_⟩
      rw [effect.cur, Function.update_of_ne different]
  | next thread member effect =>
      refine ⟨effect.idle, fun other different => ?_⟩
      rw [effect.cur, Function.update_of_ne different]
  | idle empty effect =>
      exact ⟨effect.idle, fun other _ => congrFun effect.cur other⟩

theorem Scheduled.elsewhere (scheduled : Scheduled cpu s after lists final) :
    Elsewhere cpu s after := by
  cases scheduled with
  | kept running awake unchanged effect =>
      exact ⟨effect.idle, fun other _ => congrFun effect.cur other⟩
  | resumed stopped picked => exact picked.elsewhere
  | switched middle between running inv away picked =>
      exact ⟨picked.elsewhere.1.trans away.elsewhere.1,
        fun other different => (picked.elsewhere.2 other different).trans
          (away.elsewhere.2 other different)⟩

namespace Contexts

variable {w : Watched}

theorem start (empty : s.Empty) : Contexts (Watched.start s) where
  saved := fun thread _ => by
    rw [Watched.resumes]
    split
    · next same => exact congrArg s.saved same
    · rfl
  cr3 := fun cpu running => absurd (empty.unused cpu).2.2.1 running

/-- The idle thread is not current. -/
theorem cur_ne_idle
    {other : Nat}
    (inv : s.Inv lists)
    (running : s.cur other ≠ 0) :
    s.cur other ≠ s.idle := by
  intro same
  have listed := inv.known _ _ (inv.own other running)
  rw [same] at listed
  exact inv.idle listed

/-- The frames that `schedule` has written hold the registers of what does not
run or has been interrupted just now. -/
theorem saved_eq
    {frame : CpuStatus}
    (contexts : Contexts w)
    (inv : w.scheduler.Inv lists)
    (apart : (w.scheduler.cur cpu ≠ 0 ∧ thread = w.scheduler.cur cpu) ∨
      ∀ other, w.scheduler.cur other ≠ 0 → w.scheduler.cur other ≠ thread) :
    (if w.scheduler.cur cpu = 0 then w.scheduler.saved
      else Function.update w.scheduler.saved (w.scheduler.cur cpu) frame)
        thread = (w.interrupted cpu frame).resumes thread := by
  rw [Watched.resumes]
  change _ = if thread = w.scheduler.idle then w.entry
    else Function.update w.context (w.scheduler.runs cpu) frame thread
  rcases apart with ⟨running, rfl⟩ | elsewhere
  · rw [if_neg running, if_neg (cur_ne_idle inv running), runs, if_neg running,
      Function.update_self, Function.update_self]
  have kept := contexts.saved thread elsewhere
  rw [Watched.resumes] at kept
  by_cases stopped : w.scheduler.cur cpu = 0
  · rw [if_pos stopped, kept, runs, if_pos stopped]
    split
    · rfl
    · next notIdle => rw [Function.update_of_ne notIdle]
  · have different : thread ≠ w.scheduler.cur cpu :=
      (elsewhere cpu stopped).symm
    rw [if_neg stopped, Function.update_of_ne different, kept, runs,
      if_neg stopped, Function.update_of_ne different]

/-- What runs next was interrupted just now, or it was not running. -/
theorem runs_apart
    (inv : s.Inv lists)
    (kept : after.Inv final)
    (elsewhere : Elsewhere cpu s after) :
    (s.cur cpu ≠ 0 ∧ after.runs cpu = s.cur cpu) ∨
      ∀ other, s.cur other ≠ 0 → s.cur other ≠ after.runs cpu := by
  by_cases stopped : after.cur cpu = 0
  · have runs_eq : after.runs cpu = s.idle := by
      rw [runs, if_pos stopped, elsewhere.1]
    rw [runs_eq]
    exact .inr fun other running => cur_ne_idle inv running
  have runs_eq : after.runs cpu = after.cur cpu := by
    rw [runs, if_neg stopped]
  rw [runs_eq]
  by_cases again : s.cur cpu ≠ 0 ∧ after.cur cpu = s.cur cpu
  · exact .inl again
  refine .inr fun other running same => ?_
  by_cases here : other = cpu
  · subst here
    exact again ⟨running, same.symm⟩
  · have busy : after.cur other ≠ 0 := by
      rwa [elsewhere.2 other here]
    refine kept.cur_ne here busy (kept.own cpu stopped) ?_
    rw [elsewhere.2 other here, same]

/-- The frame that an interrupt goes on with, and what it leaves behind when it
goes on with the interrupted thread. -/
theorem keep
    {address curStatus : Nat} {frame : CpuStatus}
    (contexts : Contexts w)
    (running : w.scheduler.cur cpu ≠ 0)
    (elsewhere : Elsewhere cpu w.scheduler after)
    (same : after.cur = w.scheduler.cur)
    (framed : KeepsFrames w.scheduler after)
    (address_eq : address = curStatus) :
    (address = curStatus ∧ w.scheduler.runs cpu = after.runs cpu ∨
        address = after.ef (after.runs cpu) ∧
          after.saved (after.runs cpu) =
            (w.interrupted cpu frame).resumes (after.runs cpu)) ∧
      after.cr3 cpu = after.root (after.runs cpu) ∧
      Contexts ((w.interrupted cpu frame).become after) := by
  have runs_eq : after.runs cpu = w.scheduler.runs cpu := by
    rw [runs, runs, same, elsewhere.1]
  have current : w.scheduler.runs cpu = w.scheduler.cur cpu := by
    rw [runs, if_neg running]
  refine ⟨.inl ⟨address_eq, runs_eq.symm⟩, ?_, ⟨fun thread apart => ?_, ?_⟩⟩
  · rw [runs_eq, current, framed.cr3, framed.root]
    exact contexts.cr3 cpu running
  · change ∀ cpu, after.cur cpu ≠ 0 → after.cur cpu ≠ thread at apart
    rw [same] at apart
    change after.saved thread = _
    have different : thread ≠ w.scheduler.runs cpu := by
      rw [current]
      exact (apart cpu running).symm
    rw [framed.saved,
      Watched.resumes_become (w := w.interrupted cpu frame) elsewhere.1,
      Watched.resumes_interrupted different]
    exact contexts.saved thread apart
  · intro other busy
    change after.cr3 other = after.root (after.cur other)
    change after.cur other ≠ 0 at busy
    rw [same] at busy
    rw [same, framed.cr3, framed.root]
    exact contexts.cr3 other busy

/-- The same when it goes on with the frame of what runs next. -/
theorem switch
    {address : Nat} {frame : CpuStatus}
    (contexts : Contexts w)
    (inv : w.scheduler.Inv lists)
    (kept : after.Inv final)
    (elsewhere : Elsewhere cpu w.scheduler after)
    (switches : Switches cpu address w.scheduler after
      (if w.scheduler.cur cpu = 0 then w.scheduler.saved
        else Function.update w.scheduler.saved (w.scheduler.cur cpu) frame)) :
    (address = after.ef (after.runs cpu) ∧
        after.saved (after.runs cpu) =
          (w.interrupted cpu frame).resumes (after.runs cpu)) ∧
      after.cr3 cpu = after.root (after.runs cpu) ∧
      Contexts ((w.interrupted cpu frame).become after) := by
  obtain ⟨address_eq, framed⟩ := switches
  refine ⟨⟨?_, ?_⟩, ?_, ⟨fun thread apart => ?_, fun other busy => ?_⟩⟩
  · rw [framed.ef]
    exact address_eq
  · rw [framed.saved]
    exact contexts.saved_eq inv (runs_apart inv kept elsewhere)
  · rw [framed.cr3, framed.root, Function.update_self]
  · change after.saved thread = _
    rw [framed.saved,
      Watched.resumes_become (w := w.interrupted cpu frame) elsewhere.1]
    refine contexts.saved_eq inv ?_
    by_cases left : w.scheduler.cur cpu ≠ 0 ∧ thread = w.scheduler.cur cpu
    · exact .inl left
    · refine .inr fun other running same => ?_
      by_cases here : other = cpu
      · subst here
        exact left ⟨running, same.symm⟩
      · rw [← elsewhere.2 other here] at running same
        exact apart other running same
  · change after.cr3 other = after.root (after.cur other)
    change after.cur other ≠ 0 at busy
    rw [framed.cr3, framed.root]
    by_cases here : other = cpu
    · subst here
      rw [Function.update_self, runs, if_neg busy]
    · rw [elsewhere.2 other here] at busy ⊢
      rw [Function.update_of_ne here]
      exact contexts.cr3 other busy

/-- What touches neither frames nor current threads. -/
theorem congr
    (contexts : Contexts w)
    (idle : after.idle = w.scheduler.idle)
    (same : after.cur = w.scheduler.cur)
    (framed : KeepsFrames w.scheduler after) :
    Contexts (w.become after) where
  saved := by
    intro thread apart
    change ∀ cpu, after.cur cpu ≠ 0 → after.cur cpu ≠ thread at apart
    change after.saved thread = _
    rw [same] at apart
    rw [framed.saved, Watched.resumes_become idle]
    exact contexts.saved thread apart
  cr3 := by
    change ∀ cpu, after.cur cpu ≠ 0 → after.cr3 cpu = after.root (after.cur cpu)
    rw [same, framed.cr3, framed.root]
    exact contexts.cr3

/-- An interrupt of the timer restores what it has to, and leaves the registers
and page tables of the threads in place. -/
theorem timer
    {ticks curStatus : Nat} {frame : CpuStatus}
    (contexts : Contexts w)
    (inv : w.scheduler.Inv lists)
    (number : frame.cpu = cpu)
    (exists_cpu : cpu < w.scheduler.numCpus)
    (here : w.scheduler.WakesHere (.timer cpu ticks curStatus frame)) :
    w.Restores (.timer cpu ticks curStatus frame) ∧
      ∀ next, w.step (.timer cpu ticks curStatus frame) = some next →
        Contexts next := by
  have wakesHere : (w.scheduler.setTicks cpu ticks).Wakes cpu →
      leastLoaded (w.scheduler.setTicks cpu ticks).cpus
        (w.scheduler.setTicks cpu ticks).numCpus = cpu := by
    rw [leastLoaded_congr (load_setTicks cpu ticks)]
    exact here
  have ticked : Contexts (w.become (w.scheduler.setTicks cpu ticks)) :=
    contexts.congr rfl (cur_setTicks cpu ticks) (Framed.setTicks ticks)
  have tickedInv := inv.setTicks cpu ticks
  obtain ⟨⟨address, after⟩, final, scheduled, kept, what⟩ :=
    tickedInv.schedule curStatus frame wakesHere
  have runs_eq : (w.scheduler.setTicks cpu ticks).runs cpu =
      w.scheduler.runs cpu := by
    rw [runs, runs, cur_setTicks]
    rfl
  have restores : (address = curStatus ∧
          w.scheduler.runs cpu = after.runs cpu ∨
        address = after.ef (after.runs cpu) ∧
          after.saved (after.runs cpu) =
            (w.interrupted cpu frame).resumes (after.runs cpu)) ∧
      after.cr3 cpu = after.root (after.runs cpu) ∧
      Contexts ((w.interrupted cpu frame).become after) := by
    have idle : (w.scheduler.setTicks cpu ticks).idle =
        (w.interrupted cpu frame).scheduler.idle := rfl
    have later : (w.interrupted cpu frame).become after =
        ((w.interrupted cpu frame).become
          (w.scheduler.setTicks cpu ticks)).become after := rfl
    rw [later, ← Watched.resumes_become idle,
      ← Watched.interrupted_become runs_eq, ← runs_eq]
    rcases tickedInv.schedule_switches scheduled with
      ⟨running, address_eq, cur_eq, framed⟩ | switches
    · exact ticked.keep running what.elsewhere cur_eq framed address_eq
    · obtain ⟨resumed, rest⟩ :=
        ticked.switch tickedInv kept what.elsewhere switches
      exact ⟨.inr resumed, rest⟩
  refine ⟨fun _ => ⟨address, after, ?_, restores.1, restores.2.1⟩, ?_⟩
  · rw [number]
    exact scheduled
  intro next stepped
  rw [Watched.step, Event.call, Scheduler.step, number, if_pos exists_cpu,
    scheduled] at stepped
  obtain rfl := Option.some.inj stepped
  exact ⟨restores.2.2.saved, restores.2.2.cr3⟩

/-- Every step restores what it has to. -/
theorem step
    {event : Event}
    (contexts : Contexts w)
    (inv : w.scheduler.Inv lists)
    (orderly : w.Orderly event) :
    w.Restores event ∧ ∀ next, w.step event = some next → Contexts next := by
  obtain ⟨numbered, here⟩ := orderly
  cases event with
  | timer processor ticks curStatus frame =>
      have number : frame.cpu = processor := numbered
      by_cases exists_cpu : processor < w.scheduler.numCpus
      · refine contexts.timer inv number exists_cpu ?_
        rcases here with single | here
        · have chosen := leastLoaded_lt w.scheduler.cpus inv.numCpus_pos
          exact fun _ => by omega
        · rwa [Event.call, number] at here
      · refine ⟨fun within => absurd within exists_cpu, fun next stepped => ?_⟩
        rw [Watched.step, Event.call, Scheduler.step, number,
          if_neg exists_cpu] at stepped
        cases stepped
  | sleep processor status =>
      refine ⟨trivial, fun next stepped => ?_⟩
      obtain ⟨after, taken, rfl⟩ := Option.map_eq_some_iff.mp stepped
      simp only [Event.call, Scheduler.step, Option.ite_none_right_eq_some,
        Option.some.injEq] at taken
      obtain ⟨-, rfl⟩ := taken
      exact contexts.congr rfl rfl
        (Framed.onThread (fun _ => rfl) (fun _ => rfl) fun _ => rfl)
  | dead processor status =>
      refine ⟨trivial, fun next stepped => ?_⟩
      obtain ⟨after, taken, rfl⟩ := Option.map_eq_some_iff.mp stepped
      simp only [Event.call, Scheduler.step, Option.ite_none_right_eq_some,
        Option.some.injEq] at taken
      obtain ⟨-, rfl⟩ := taken
      have marked : KeepsFrames w.scheduler
          (w.scheduler.setStatus (w.scheduler.cur status.cpu) .dead) :=
        Framed.setStatus .dead
      exact contexts.congr rfl rfl
        ⟨marked.saved, marked.ef, marked.root, marked.cr3⟩
  | add thread =>
      refine ⟨trivial, fun next stepped => ?_⟩
      obtain ⟨after, taken, rfl⟩ := Option.map_eq_some_iff.mp stepped
      simp only [Event.call, Scheduler.step, Option.ite_none_right_eq_some,
        Option.some.injEq] at taken
      obtain ⟨-, rfl⟩ := taken
      have made : KeepsFrames w.scheduler (w.scheduler.makeThread thread) := by
        have marked : KeepsFrames w.scheduler
            (w.scheduler.onThread thread fun record =>
              { record with
                status := .new
                wakeupTime := 0
                next := 0
                ticks := 0 }) :=
          Framed.onThread (fun _ => rfl) (fun _ => rfl) fun _ => rfl
        exact ⟨marked.saved, marked.ef, marked.root, marked.cr3⟩
      refine contexts.congr rfl ?_ (made.keep Framed.schedulerAddThread)
      exact (Effect.schedulerAddThread
        (s := w.scheduler.makeThread thread)).cur

end Contexts

/-- In every run from empty lists whose interrupted code has the number of its
processor in `r14`, on one processor or where threads are woken on the processor
to whose list they go, every interrupt of the timer returns.  It gives what runs
next its own page table and the registers that it was last interrupted with;
the idle thread starts again with the frame it was made with. -/
theorem contexts_restored
    (s : Scheduler) (events : List Event)
    (empty : s.Empty)
    (orderly : Runs.Along Watched.step Watched.Orderly (Watched.start s)
      events) :
    Runs.Along Watched.step Watched.Restores (Watched.start s) events := by
  have initially : ∃ lists, (Watched.start s).scheduler.Inv lists ∧
      Contexts (Watched.start s) :=
    ⟨_, empty.inv, .start empty⟩
  refine Runs.along_of_invariant
    (fun w => ∃ lists, w.scheduler.Inv lists ∧ Contexts w) ?_ initially orderly
  rintro w event ⟨lists, inv, contexts⟩ allowed
  obtain ⟨restores, kept⟩ := contexts.step inv allowed
  refine ⟨restores, fun next stepped => ?_⟩
  obtain ⟨after, taken, rfl⟩ := Option.map_eq_some_iff.mp stepped
  have here : w.scheduler.WakesHere event.call := by
    rcases allowed.2 with single | here
    · exact wakesHere_of_single single taken
    · exact here
  obtain ⟨final, afterInv, -⟩ := inv.step here taken
  exact ⟨final, afterInv, kept _ stepped⟩

/-- Registers with a processor's number and a mark. -/
def sampleFrame (processor mark : Nat) : CpuStatus :=
  { zeroStatus with
    r14 := BitVec.ofNat 64 processor
    rax := BitVec.ofNat 64 mark }

/-- Three threads on two processors; one sleeps and is woken where it ran
before, and both processors are interrupted while they are idle. -/
def sampleEvents : List Event :=
  [.timer 0 0 0 (sampleFrame 0 7), .add 2, .add 3,
    .timer 0 1 0 (sampleFrame 0 8), .timer 1 1 0 (sampleFrame 1 9), .add 4,
    .sleep 1 (sampleFrame 1 0), .timer 1 1 0 (sampleFrame 1 5),
    .timer 0 2 0 (sampleFrame 0 6)]

/-- Threads and the idle thread are interrupted, and each goes on. -/
theorem contexts_restored_sample :
    Runs.Along Watched.step Watched.Restores (Watched.start (sample 2))
      sampleEvents :=
  contexts_restored (sample 2) sampleEvents (sample_empty (by decide))
    (by decide +kernel)

end Scheduler
end PivotOs
