import PivotOs.Library.LinkedList
import PivotOs.Library.Runs
import PivotOs.Thread.Defs

/-!
# The scheduler

`scheduler/scheduler.c`, with the system calls of `scheduler/thread.c` that
change the status of the current thread.  Every processor has a list of
threads and a list of sleepers, and both run through the field `next` of
`thread_t`.  `schedule` returns to the idle thread at once; what is modelled
here is the policy that its later lines code.  The structures are in a store
by address, and the null pointer is 0.
-/

namespace PivotOs

/-- `cpu_data_t`, with the register `cr3` of the processor. -/
structure CpuData where
  /-- `threads`. -/
  threads : Nat
  /-- `wakeups`. -/
  wakeups : Nat
  /-- `cur`. -/
  cur : Nat
  /-- `num_threads`. -/
  numThreads : Nat
  /-- `ticks`. -/
  ticks : Nat
  /-- The page table in use. -/
  cr3 : Word

/-- `KSMP` and the threads, with three records for the statements about runs:
the threads added, those that have called the exit system call, and those
that were switched away from in status `SLEEP` and have not been made current
since. -/
structure Scheduler where
  /-- The structures, by address. -/
  mem : Nat → ThreadT
  /-- `KCPUS`. -/
  cpus : Nat → CpuData
  /-- `KSMP.num_cpus`. -/
  numCpus : Nat
  /-- `KSMP.idle`. -/
  idle : Nat
  /-- The threads added, newest first. -/
  added : List Nat
  /-- The threads that have exited. -/
  exited : List Nat
  /-- The threads asleep. -/
  asleep : List Nat

namespace Scheduler

/-- `SCHEDULER_THREAD_TICKS`. -/
def threadTicks : Nat := 0x100

/-- The field `next` of every thread. -/
def next (s : Scheduler) (thread : Nat) : Nat := (s.mem thread).next

/-- Change a thread. -/
def onThread (thread : Nat) (change : ThreadT → ThreadT) (s : Scheduler) :
    Scheduler :=
  { s with mem := Function.update s.mem thread (change (s.mem thread)) }

/-- Change the data of a processor. -/
def onCpu (cpu : Nat) (change : CpuData → CpuData) (s : Scheduler) :
    Scheduler :=
  { s with cpus := Function.update s.cpus cpu (change (s.cpus cpu)) }

/-- Set `next` of a thread. -/
def setNext (thread target : Nat) : Scheduler → Scheduler :=
  onThread thread fun record => { record with next := target }

/-- Set `status` of a thread. -/
def setStatus (thread : Nat) (status : ThreadStatus) : Scheduler → Scheduler :=
  onThread thread fun record => { record with status := status }

/-- `memcpy` of a frame to `ef` of a thread. -/
def saveFrame (thread : Nat) (frame : CpuStatus) : Scheduler → Scheduler :=
  onThread thread fun record => { record with saved := frame }

/-- Make a thread ready, with no ticks counted. -/
def markReady (thread : Nat) : Scheduler → Scheduler :=
  onThread thread fun record => { record with status := .ready, ticks := 0 }

/-- Increment `ticks` of a thread. -/
def countTick (thread : Nat) : Scheduler → Scheduler :=
  onThread thread fun record => { record with ticks := record.ticks + 1 }

/-- `load_cr3`. -/
def loadCr3 (cpu : Nat) (root : Word) : Scheduler → Scheduler :=
  onCpu cpu fun data => { data with cr3 := root }

/-- Set `threads` of a processor. -/
def setThreads (cpu first : Nat) : Scheduler → Scheduler :=
  onCpu cpu fun data => { data with threads := first }

/-- Set `wakeups` of a processor. -/
def setWakeups (cpu first : Nat) : Scheduler → Scheduler :=
  onCpu cpu fun data => { data with wakeups := first }

/-- Set `cur` of a processor. -/
def setCur (cpu thread : Nat) : Scheduler → Scheduler :=
  onCpu cpu fun data => { data with cur := thread }

/-- Set `ticks` of a processor. -/
def setTicks (cpu ticks : Nat) : Scheduler → Scheduler :=
  onCpu cpu fun data => { data with ticks := ticks }

/-- Increment `num_threads` of a processor. -/
def countThread (cpu : Nat) : Scheduler → Scheduler :=
  onCpu cpu fun data => { data with numThreads := data.numThreads + 1 }

/-- A bound on the rounds of a loop over a list: a list that ends holds no
thread twice, so a longer walk never ends. -/
def rounds (s : Scheduler) : Nat := s.added.length + 1

/-! ## Lists of threads -/

/-- The processor that the loop of `scheduler_add_thread` has chosen after the
first `count` of them. -/
def leastLoaded (cpus : Nat → CpuData) : (count : Nat) → Nat
  | 0 => 0
  | i + 1 =>
      if (cpus i).numThreads < (cpus (leastLoaded cpus i)).numThreads then i
      else leastLoaded cpus i

/-- `scheduler_add_thread`. -/
def schedulerAddThread (thread : Nat) (s : Scheduler) : Scheduler :=
  let cpu := leastLoaded s.cpus s.numCpus
  ((s.countThread cpu).setNext thread (s.cpus cpu).threads).setThreads cpu
    thread

/-- `scheduler_remove_thread`: what `*list` becomes, and the threads.  `none`
when the loop does not end. -/
def schedulerRemoveThread (list thread : Nat) (s : Scheduler) :
    Option (Nat × Scheduler) :=
  (LinkedList.walk s.next 0 (fun item => item ≠ thread) s.rounds 0 list).map
    fun found =>
      let prevItem := found.1
      let item := found.2
      if item = 0 then (list, s)
      else if item = list then (s.next item, s)
      else
        (list, s.setNext prevItem (s.next item))

/-- `scheduler_remove_thread(&KCPUS[cpu].threads, thread)`. -/
def removeFrom (cpu thread : Nat) (s : Scheduler) : Option Scheduler :=
  (schedulerRemoveThread (s.cpus cpu).threads thread s).map fun result =>
    result.2.setThreads cpu result.1

/-- `scheduler_next_thread`. -/
def schedulerNextThread (cpu thread : Nat) (s : Scheduler) : Nat :=
  if (s.cpus cpu).threads = 0 then 0
  else if thread = 0 then (s.cpus cpu).threads
  else if s.next thread = 0 then (s.cpus cpu).threads
  else s.next thread

/-- `ready_thread`: the frame it returns, and the state. -/
def readyThread (cpu thread : Nat) (safety : Bool) (s : Scheduler) :
    Nat × Scheduler :=
  let s := if safety then s.setCur cpu thread else s
  let s := s.markReady thread
  ((s.mem thread).ef, s.loadCr3 cpu (paddr (s.mem thread).vmm.p4Tbl))

/-! ## `schedule` -/

/-- Whether the current thread goes on.  Its ticks are counted only when there
is a sleeper that is not due. -/
def keepsRunning (cpu : Nat) (s : Scheduler) : Bool × Scheduler :=
  let data := s.cpus cpu
  let cur := s.mem data.cur
  if data.wakeups ≠ 0 ∧ data.ticks < (s.mem data.wakeups).wakeupTime then
    (decide (cur.ticks < threadTicks ∧ cur.status ≠ .dead ∧
        cur.status ≠ .sleep),
      s.countTick data.cur)
  else (false, s)

/-- Put a thread on the list of sleepers, before the first that does not wake
earlier. -/
def insertWakeup (cpu thread : Nat) (s : Scheduler) : Option Scheduler :=
  (LinkedList.walk s.next 0
      (fun item => (s.mem item).wakeupTime < (s.mem thread).wakeupTime)
      s.rounds 0 (s.cpus cpu).wakeups).map fun found =>
    let prev := found.1
    let item := found.2
    let s := if prev ≠ 0 then s.setNext prev thread
      else s.setWakeups cpu thread
    s.setNext thread item

/-- Save the frame of the current thread, and take the thread off the list
when it has exited or sleeps. -/
def switchAway (cpu : Nat) (frame : CpuStatus) (s : Scheduler) :
    Option Scheduler :=
  let thread := (s.cpus cpu).cur
  let s := if (s.mem thread).status ≠ .dead ∧ (s.mem thread).status ≠ .sleep
    then s.setStatus thread .ready else s
  let s := s.saveFrame thread frame
  if (s.mem thread).status = .dead then
    (s.removeFrom cpu thread).map fun s => s.setCur cpu 0
  else if (s.mem thread).status = .sleep then
    ((s.setCur cpu 0).removeFrom cpu thread).bind fun s =>
      s.insertWakeup cpu thread
  else some s

/-- The first sleeper is due. -/
def Due (cpu : Nat) (s : Scheduler) : Prop :=
  (s.cpus cpu).wakeups ≠ 0 ∧
    (s.mem (s.cpus cpu).wakeups).wakeupTime ≤ (s.cpus cpu).ticks

instance (cpu : Nat) (s : Scheduler) : Decidable (s.Due cpu) :=
  inferInstanceAs (Decidable (_ ∧ _))

/-- Wake the first sleeper: it is added to the threads of some processor and
runs on this one. -/
def wakeFirst (cpu : Nat) (s : Scheduler) : Nat × Scheduler :=
  let thread := (s.cpus cpu).wakeups
  let nextWakeup := s.next thread
  ((s.schedulerAddThread thread).setWakeups cpu nextWakeup).readyThread cpu
    thread true

/-- Choose what runs next: a sleeper that is due, the next thread, or the idle
thread. -/
def pick (cpu : Nat) (s : Scheduler) : Nat × Scheduler :=
  if s.Due cpu then s.wakeFirst cpu
  else
    let thread := s.schedulerNextThread cpu (s.cpus cpu).cur
    if thread ≠ 0 then s.readyThread cpu thread true
    else s.readyThread cpu s.idle false

/-- `schedule` below its first return: the frame to go on with, and the
state.  `frame` is what `cur_status` points to. -/
def schedule (cpu curStatus : Nat) (frame : CpuStatus) (s : Scheduler) :
    Option (Nat × Scheduler) :=
  if (s.cpus cpu).threads = 0 ∧ (s.cpus cpu).wakeups = 0 then
    some (s.readyThread cpu s.idle false)
  else if (s.cpus cpu).cur = 0 then some (s.pick cpu)
  else
    let kept := s.keepsRunning cpu
    if kept.1 then some (curStatus, kept.2)
    else (kept.2.switchAway cpu frame).map fun s => s.pick cpu

/-! ## The system -/

/-- `thread_sleep_syscall`. -/
def threadSleepSyscall (cpu : Nat) (status : CpuStatus) (s : Scheduler) :
    Scheduler :=
  s.onThread (s.cpus cpu).cur fun record =>
    { record with
      status := .sleep
      wakeupTime := wrap ((s.cpus cpu).ticks + status.rdi.toNat) }

/-- `thread_dead_syscall`, which is also recorded. -/
def threadDeadSyscall (cpu : Nat) (s : Scheduler) : Scheduler :=
  { s.setStatus (s.cpus cpu).cur .dead with
    exited := (s.cpus cpu).cur :: s.exited }

/-- What `create_thread` stores for the scheduler. -/
def makeThread (thread : Nat) (s : Scheduler) : Scheduler :=
  { s.onThread thread fun record =>
      { record with
        status := .new
        wakeupTime := 0
        next := 0
        ticks := 0 } with
    added := thread :: s.added }

/-- What can happen: a timer interrupt on a processor with the tick count it
finds there, a system call of the thread that runs on a processor, and the
addition of a thread that `create_thread` has made. -/
inductive Call
  | timer (cpu ticks curStatus : Nat) (frame : CpuStatus)
  | sleep (cpu : Nat) (status : CpuStatus)
  | dead (cpu : Nat)
  | add (thread : Nat)

/-- The record of the sleepers after a timer interrupt. -/
def asleepAfter (cpu : Nat) (s after : Scheduler) : List Nat :=
  let cur := (s.cpus cpu).cur
  let asleep := if cur ≠ 0 ∧ (s.mem cur).status = .sleep then cur :: s.asleep
    else s.asleep
  asleep.filter fun thread => thread ≠ (after.cpus cpu).cur

/-- One step.  A system call comes from a running thread, and the threads
added are new. -/
def step (s : Scheduler) : Call → Option Scheduler
  | .timer cpu ticks curStatus frame =>
      if cpu < s.numCpus then
        ((s.setTicks cpu ticks).schedule cpu curStatus frame).map fun result =>
          { result.2 with asleep := s.asleepAfter cpu result.2 }
      else none
  | .sleep cpu status =>
      if cpu < s.numCpus ∧ (s.cpus cpu).cur ≠ 0 then
        some (s.threadSleepSyscall cpu status)
      else none
  | .dead cpu =>
      if cpu < s.numCpus ∧ (s.cpus cpu).cur ≠ 0 then
        some (s.threadDeadSyscall cpu)
      else none
  | .add thread =>
      if thread ≠ 0 ∧ thread ≠ s.idle ∧ thread ∉ s.added then
        some ((s.makeThread thread).schedulerAddThread thread)
      else none

/-- The scheduler with empty lists. -/
structure Empty (s : Scheduler) : Prop where
  /-- There is a processor. -/
  numCpus_pos : 0 < s.numCpus
  /-- Nothing is listed, and nothing runs. -/
  unused : ∀ cpu, (s.cpus cpu).threads = 0 ∧ (s.cpus cpu).wakeups = 0 ∧
    (s.cpus cpu).cur = 0 ∧ (s.cpus cpu).numThreads = 0
  /-- Nothing has happened. -/
  records : s.added = [] ∧ s.exited = [] ∧ s.asleep = []

end Scheduler
end PivotOs
