import PivotOs.Scheduler.Defs
import Mathlib.Data.List.Nodup
import Mathlib.Data.List.TakeWhile
import Mathlib.Data.List.Perm.Subperm

/-!
# The lists of the scheduler

Both lists of every processor run through the same field, so a list is as the
scheduler left it only as long as no thread is on two of them.  The operations
that relink threads are described by what they do to the lists as sequences.
-/

namespace PivotOs

open LinkedList

namespace Scheduler

/-- The lists that run through `next`. -/
inductive Queue
  | threads (cpu : Nat)
  | wakeups (cpu : Nat)
  deriving DecidableEq

/-- The processor whose list it is. -/
def Queue.cpu : Queue → Nat
  | .threads cpu => cpu
  | .wakeups cpu => cpu

/-- The field of `cpu_data_t` that points to the list. -/
def Queue.first (data : CpuData) : Queue → Nat
  | .threads _ => data.threads
  | .wakeups _ => data.wakeups

/-- The pointer to the first thread of a list. -/
def head (s : Scheduler) (queue : Queue) : Nat :=
  queue.first (s.cpus queue.cpu)

/-- The lists are these, and no thread is on two of them. -/
def Lists (s : Scheduler) (lists : Queue → List Nat) : Prop :=
  Holds s.next 0 s.head lists

/-- `status` of every thread. -/
def status (s : Scheduler) (thread : Nat) : ThreadStatus :=
  (s.mem thread).status

/-- `wakeup_time` of every thread. -/
def wakeupTime (s : Scheduler) (thread : Nat) : Nat :=
  (s.mem thread).wakeupTime

/-- `cur` of every processor. -/
def cur (s : Scheduler) (cpu : Nat) : Nat := (s.cpus cpu).cur

/-- `ticks` of every processor. -/
def ticks (s : Scheduler) (cpu : Nat) : Nat := (s.cpus cpu).ticks

/-- `num_threads` of every processor. -/
def load (s : Scheduler) (cpu : Nat) : Nat := (s.cpus cpu).numThreads

/-- What is left, links, loads and saved registers apart, when the status of
the threads and the current threads become these and nothing else happens. -/
structure Effect (s after : Scheduler) (status : Nat → ThreadStatus)
    (cur : Nat → Nat) : Prop where
  status : after.status = status
  cur : after.cur = cur
  wakeupTime : after.wakeupTime = s.wakeupTime
  ticks : after.ticks = s.ticks
  numCpus : after.numCpus = s.numCpus
  idle : after.idle = s.idle
  added : after.added = s.added
  exited : after.exited = s.exited

/-- Nothing but links, loads and saved registers changes. -/
abbrev Relinked (s after : Scheduler) : Prop := Effect s after s.status s.cur

variable {s after : Scheduler} {lists : Queue → List Nat} {cpu thread : Nat}

/-! ## Changes of one record -/

theorem mem_onThread (change : ThreadT → ThreadT) (other : Nat) :
    (s.onThread thread change).mem other =
      if other = thread then change (s.mem thread) else s.mem other :=
  Function.update_apply _ _ _ _

theorem cpus_onCpu (change : CpuData → CpuData) (other : Nat) :
    (s.onCpu cpu change).cpus other =
      if other = cpu then change (s.cpus cpu) else s.cpus other :=
  Function.update_apply _ _ _ _

@[simp] theorem cpus_onThread (change : ThreadT → ThreadT) :
    (s.onThread thread change).cpus = s.cpus := rfl

@[simp] theorem mem_onCpu (change : CpuData → CpuData) :
    (s.onCpu cpu change).mem = s.mem := rfl

@[simp] theorem next_onCpu (change : CpuData → CpuData) :
    (s.onCpu cpu change).next = s.next := rfl

@[simp] theorem head_onThread (change : ThreadT → ThreadT) :
    (s.onThread thread change).head = s.head := rfl

theorem next_setNext (target : Nat) :
    (s.setNext thread target).next = Function.update s.next thread target := by
  funext other
  by_cases same : other = thread
  · subst same
    simp [setNext, next, mem_onThread]
  · simp [setNext, next, mem_onThread, same]

/-- Other fields than the link. -/
theorem next_onThread_of_keeps
    {change : ThreadT → ThreadT}
    (keeps : ∀ record, (change record).next = record.next) :
    (s.onThread thread change).next = s.next := by
  funext other
  by_cases same : other = thread
  · subst same
    simp [next, mem_onThread, keeps]
  · simp [next, mem_onThread, same]

theorem head_onCpu (change : CpuData → CpuData) (queue : Queue) :
    (s.onCpu cpu change).head queue =
      if queue.cpu = cpu then queue.first (change (s.cpus cpu))
      else s.head queue := by
  unfold head
  rw [cpus_onCpu, apply_ite queue.first]

/-- Other fields than the heads of the lists. -/
theorem head_onCpu_of_keeps
    {change : CpuData → CpuData}
    (keeps : ∀ data, (change data).threads = data.threads ∧
      (change data).wakeups = data.wakeups) :
    (s.onCpu cpu change).head = s.head := by
  funext queue
  rw [head_onCpu]
  split
  · next same =>
      subst same
      cases queue with
      | threads cpu => exact (keeps _).1
      | wakeups cpu => exact (keeps _).2
  · rfl

theorem head_setThreads (first : Nat) :
    (s.setThreads cpu first).head =
      Function.update s.head (.threads cpu) first := by
  funext queue
  rw [setThreads, head_onCpu, Function.update_apply]
  cases queue with
  | threads other =>
      by_cases same : other = cpu <;>
        simp [Queue.cpu, Queue.first, head, same]
  | wakeups other =>
      by_cases same : other = cpu <;>
        simp [Queue.cpu, Queue.first, head, same]

theorem head_setWakeups (first : Nat) :
    (s.setWakeups cpu first).head =
      Function.update s.head (.wakeups cpu) first := by
  funext queue
  rw [setWakeups, head_onCpu, Function.update_apply]
  cases queue with
  | threads other =>
      by_cases same : other = cpu <;>
        simp [Queue.cpu, Queue.first, head, same]
  | wakeups other =>
      by_cases same : other = cpu <;>
        simp [Queue.cpu, Queue.first, head, same]

@[simp] theorem head_setNext (target : Nat) :
    (s.setNext thread target).head = s.head := rfl

@[simp] theorem next_setThreads (first : Nat) :
    (s.setThreads cpu first).next = s.next := rfl

@[simp] theorem next_setWakeups (first : Nat) :
    (s.setWakeups cpu first).next = s.next := rfl

/-- Other fields than the load. -/
theorem load_onCpu_of_keeps
    {change : CpuData → CpuData}
    (keeps : ∀ data, (change data).numThreads = data.numThreads) :
    (s.onCpu cpu change).load = s.load := by
  funext other
  by_cases same : other = cpu
  · subst same
    simp [load, cpus_onCpu, keeps]
  · simp [load, cpus_onCpu, same]

@[simp] theorem load_onThread (change : ThreadT → ThreadT) :
    (s.onThread thread change).load = s.load := rfl

@[simp] theorem load_setNext (target : Nat) :
    (s.setNext thread target).load = s.load := rfl

@[simp] theorem load_setThreads (first : Nat) :
    (s.setThreads cpu first).load = s.load :=
  load_onCpu_of_keeps fun _ => rfl

@[simp] theorem load_setWakeups (first : Nat) :
    (s.setWakeups cpu first).load = s.load :=
  load_onCpu_of_keeps fun _ => rfl

@[simp] theorem load_setCur : (s.setCur cpu thread).load = s.load :=
  load_onCpu_of_keeps fun _ => rfl

@[simp] theorem load_countThread :
    (s.countThread cpu).load =
      Function.update s.load cpu (s.load cpu + 1) := by
  funext other
  by_cases same : other = cpu
  · subst same
    simp [countThread, load, cpus_onCpu]
  · simp [countThread, load, cpus_onCpu, same]

/-- The choice depends on the loads only. -/
theorem leastLoaded_congr
    (same : after.load = s.load)
    (count : Nat) :
    leastLoaded after.cpus count = leastLoaded s.cpus count := by
  induction count with
  | zero => rfl
  | succ i inductionHypothesis =>
      have load_eq : ∀ cpu,
          (after.cpus cpu).numThreads = (s.cpus cpu).numThreads := congrFun same
      simp only [leastLoaded, load_eq, inductionHypothesis]

/-- One of the processors is chosen. -/
theorem leastLoaded_lt (cpus : Nat → CpuData) {count : Nat} (some : 0 < count) :
    leastLoaded cpus count < count := by
  induction count with
  | zero => exact absurd some (Nat.lt_irrefl 0)
  | succ i inductionHypothesis =>
      rw [leastLoaded]
      split
      · exact Nat.lt_succ_self i
      · rcases Nat.eq_zero_or_pos i with rfl | positive
        · exact Nat.zero_lt_one
        · exact Nat.lt_succ_of_lt (inductionHypothesis positive)

/-- None of them has a smaller load. -/
theorem leastLoaded_le (s : Scheduler) {count other : Nat}
    (within : other < count) :
    s.load (leastLoaded s.cpus count) ≤ s.load other := by
  induction count with
  | zero => exact absurd within (Nat.not_lt_zero other)
  | succ i inductionHypothesis =>
      rw [leastLoaded]
      rcases Nat.lt_succ_iff_lt_or_eq.mp within with before | rfl
      · split
        · next smaller =>
            exact (Nat.le_of_lt smaller).trans (inductionHypothesis before)
        · exact inductionHypothesis before
      · split
        · exact Nat.le_refl _
        · next notSmaller => exact Nat.le_of_not_lt notSmaller

@[simp] theorem next_countThread : (s.countThread cpu).next = s.next := rfl

@[simp] theorem head_countThread : (s.countThread cpu).head = s.head :=
  head_onCpu_of_keeps fun _ => ⟨rfl, rfl⟩

namespace Effect

variable {status : Nat → ThreadStatus} {cur : Nat → Nat}

@[refl] theorem refl (s : Scheduler) : Relinked s s :=
  ⟨rfl, rfl, rfl, rfl, rfl, rfl, rfl, rfl⟩

theorem trans
    {last : Scheduler} {laterStatus : Nat → ThreadStatus}
    {laterCur : Nat → Nat}
    (first : Effect s after status cur)
    (second : Effect after last laterStatus laterCur) :
    Effect s last laterStatus laterCur where
  status := second.status
  cur := second.cur
  wakeupTime := second.wakeupTime.trans first.wakeupTime
  ticks := second.ticks.trans first.ticks
  numCpus := second.numCpus.trans first.numCpus
  idle := second.idle.trans first.idle
  added := second.added.trans first.added
  exited := second.exited.trans first.exited

/-- Relinking afterwards. -/
theorem relink
    {last : Scheduler}
    (first : Effect s after status cur)
    (second : Relinked after last) :
    Effect s last status cur := by
  have composed := first.trans second
  rwa [first.status, first.cur] at composed

theorem onThread
    {change : ThreadT → ThreadT}
    (keeps : ∀ record, (change record).wakeupTime = record.wakeupTime) :
    Effect s (s.onThread thread change)
      (Function.update s.status thread (change (s.mem thread)).status)
      s.cur where
  status := by
    funext other
    by_cases same : other = thread
    · subst same
      simp [Scheduler.status, mem_onThread]
    · simp [Scheduler.status, mem_onThread, same]
  cur := rfl
  wakeupTime := by
    funext other
    by_cases same : other = thread
    · subst same
      simp [Scheduler.wakeupTime, mem_onThread, keeps]
    · simp [Scheduler.wakeupTime, mem_onThread, same]
  ticks := rfl
  numCpus := rfl
  idle := rfl
  added := rfl
  exited := rfl

theorem onCpu
    {change : CpuData → CpuData}
    (keeps : ∀ data, (change data).ticks = data.ticks) :
    Effect s (s.onCpu cpu change) s.status
      (Function.update s.cur cpu (change (s.cpus cpu)).cur) where
  status := rfl
  cur := by
    funext other
    by_cases same : other = cpu
    · subst same
      simp [Scheduler.cur, cpus_onCpu]
    · simp [Scheduler.cur, cpus_onCpu, same]
  wakeupTime := rfl
  ticks := by
    funext other
    by_cases same : other = cpu
    · subst same
      simp [Scheduler.ticks, cpus_onCpu, keeps]
    · simp [Scheduler.ticks, cpus_onCpu, same]
  numCpus := rfl
  idle := rfl
  added := rfl
  exited := rfl

/-- A change of a thread that keeps its status. -/
theorem onThread_of_keeps
    {change : ThreadT → ThreadT}
    (keeps : ∀ record, (change record).wakeupTime = record.wakeupTime)
    (same : ∀ record, (change record).status = record.status) :
    Relinked s (s.onThread thread change) := by
  have effect : Effect s (s.onThread thread change) _ _ := onThread keeps
  rwa [same, show (s.mem thread).status = s.status thread from rfl,
    Function.update_eq_self] at effect

/-- A change of a processor that keeps its current thread. -/
theorem onCpu_of_keeps
    {change : CpuData → CpuData}
    (keeps : ∀ data, (change data).ticks = data.ticks)
    (same : ∀ data, (change data).cur = data.cur) :
    Relinked s (s.onCpu cpu change) := by
  have effect : Effect s (s.onCpu cpu change) _ _ := onCpu keeps
  rwa [same, show (s.cpus cpu).cur = s.cur cpu from rfl,
    Function.update_eq_self] at effect

theorem setStatus (status : ThreadStatus) :
    Effect s (s.setStatus thread status)
      (Function.update s.status thread status) s.cur :=
  onThread fun _ => rfl

theorem saveFrame (frame : CpuStatus) :
    Relinked s (s.saveFrame thread frame) :=
  onThread_of_keeps (fun _ => rfl) fun _ => rfl

theorem markReady (thread : Nat) :
    Effect s (s.markReady thread) (Function.update s.status thread .ready)
      s.cur :=
  onThread fun _ => rfl

theorem countTick : Relinked s (s.countTick thread) :=
  onThread_of_keeps (fun _ => rfl) fun _ => rfl

theorem loadCr3 (root : Word) : Relinked s (s.loadCr3 cpu root) :=
  onCpu_of_keeps (fun _ => rfl) fun _ => rfl

theorem setCur (cpu thread : Nat) :
    Effect s (s.setCur cpu thread) s.status
      (Function.update s.cur cpu thread) :=
  onCpu fun _ => rfl

theorem setNext (target : Nat) : Relinked s (s.setNext thread target) :=
  onThread_of_keeps (fun _ => rfl) fun _ => rfl

theorem setThreads (first : Nat) : Relinked s (s.setThreads cpu first) :=
  onCpu_of_keeps (fun _ => rfl) fun _ => rfl

theorem setWakeups (first : Nat) : Relinked s (s.setWakeups cpu first) :=
  onCpu_of_keeps (fun _ => rfl) fun _ => rfl

theorem countThread : Relinked s (s.countThread cpu) :=
  onCpu_of_keeps (fun _ => rfl) fun _ => rfl

theorem schedulerAddThread : Relinked s (s.schedulerAddThread thread) :=
  (countThread.relink (setNext _)).relink (setThreads _)

end Effect

/-! ## Operations on the lists -/

/-- A list cannot be longer than there are threads. -/
theorem Lists.length_lt_rounds
    (queue : Queue)
    (holds : s.Lists lists)
    (known : ∀ queue, ∀ thread ∈ lists queue, thread ∈ s.added) :
    (lists queue).length < s.rounds := by
  have distinct := (holds.spells queue).nodup
  exact Nat.lt_succ_of_le
    (List.Nodup.subperm distinct (known queue)).length_le

/-- A thread that is on no list is put in front of the threads of the least
loaded processor. -/
theorem Lists.schedulerAddThread
    (holds : s.Lists lists)
    (notNull : thread ≠ 0)
    (fresh : ∀ queue, thread ∉ lists queue) :
    (s.schedulerAddThread thread).Lists
      (Function.update lists (.threads (leastLoaded s.cpus s.numCpus))
        (thread :: lists (.threads (leastLoaded s.cpus s.numCpus)))) := by
  have pushed := holds.push (.threads (leastLoaded s.cpus s.numCpus)) notNull
    fresh
  rw [Lists, Scheduler.schedulerAddThread, next_setThreads, next_setNext,
    next_countThread, head_setThreads, head_setNext, head_countThread]
  exact pushed

/-- `scheduler_remove_thread` on the list that holds the thread. -/
theorem schedulerRemoveThread_eq
    {list : Nat} {nodes others : List Nat}
    (spelled : Spells s.next 0 list (nodes ++ thread :: others))
    (short : (nodes ++ thread :: others).length < s.rounds) :
    s.schedulerRemoveThread list thread =
      some (if thread = list then (s.next thread, s)
        else (list, s.setNext (nodes.getLastD 0) (s.next thread))) := by
  have notNull : thread ≠ 0 := spelled.ne_null (by simp)
  have first : thread ∉ nodes := fun member =>
    (List.nodup_append.mp spelled.nodup).2.2 thread member thread
      List.mem_cons_self rfl
  rw [schedulerRemoveThread, walk_to 0 spelled first short]
  simp only [Option.map_some, if_neg notNull]

/-- A thread of a processor is taken off its list. -/
theorem Lists.removeFrom
    (holds : s.Lists lists)
    (known : ∀ queue, ∀ thread ∈ lists queue, thread ∈ s.added)
    (member : thread ∈ lists (.threads cpu)) :
    ∃ after, s.removeFrom cpu thread = some after ∧ Relinked s after ∧
      after.Lists (Function.update lists (.threads cpu)
        ((lists (.threads cpu)).erase thread)) ∧
      after.load = s.load := by
  obtain ⟨nodes, others, parts, first⟩ := List.eq_append_cons_of_mem member
  have spelled := holds.spells (.threads cpu)
  have short := holds.length_lt_rounds (.threads cpu) known
  have rest : (lists (.threads cpu)).erase thread = nodes ++ others := by
    rw [parts, List.erase_append_right _ first, List.erase_cons_head]
  rw [parts] at spelled short
  have removed := holds.remove parts
  have found : s.schedulerRemoveThread (s.cpus cpu).threads thread = _ :=
    schedulerRemoveThread_eq spelled short
  change Holds (if thread = (s.cpus cpu).threads then _ else _) 0
    (Function.update s.head _
      (if thread = (s.cpus cpu).threads then _ else (s.cpus cpu).threads))
    _ at removed
  rw [Scheduler.removeFrom, found, rest]
  by_cases isFirst : thread = (s.cpus cpu).threads
  · rw [if_pos isFirst]
    rw [if_pos isFirst, if_pos isFirst] at removed
    refine ⟨_, rfl, Effect.setThreads _, ?_, ?_⟩
    · rw [Lists, next_setThreads, head_setThreads]
      exact removed
    · rw [load_setThreads]
  · rw [if_neg isFirst]
    rw [if_neg isFirst, if_neg isFirst] at removed
    refine ⟨_, rfl, (Effect.setNext _).relink (Effect.setThreads _), ?_, ?_⟩
    · rw [Lists, next_setThreads, head_setThreads, next_setNext, head_setNext]
      exact removed
    · rw [load_setThreads, load_setNext]

/-- A thread that is on no list is put among the sleepers, behind those that
wake earlier. -/
theorem Lists.insertWakeup
    (cpu : Nat)
    (holds : s.Lists lists)
    (known : ∀ queue, ∀ thread ∈ lists queue, thread ∈ s.added)
    (notNull : thread ≠ 0)
    (fresh : ∀ queue, thread ∉ lists queue) :
    ∃ after nodes others, s.insertWakeup cpu thread = some after ∧
      Relinked s after ∧ lists (.wakeups cpu) = nodes ++ others ∧
      (∀ node ∈ nodes, (s.mem node).wakeupTime < (s.mem thread).wakeupTime) ∧
      (∀ node ∈ others.head?,
        (s.mem thread).wakeupTime ≤ (s.mem node).wakeupTime) ∧
      after.Lists (Function.update lists (.wakeups cpu)
        (nodes ++ thread :: others)) ∧
      after.load = s.load := by
  have spelled := holds.spells (.wakeups cpu)
  have short := holds.length_lt_rounds (.wakeups cpu) known
  set earlier : Nat → Bool := fun item =>
    (s.mem item).wakeupTime < (s.mem thread).wakeupTime with earlier_eq
  set nodes := (lists (.wakeups cpu)).takeWhile earlier
  set others := (lists (.wakeups cpu)).dropWhile earlier
  have parts : lists (.wakeups cpu) = nodes ++ others :=
    List.takeWhile_append_dropWhile.symm
  have found : walk s.next 0 earlier s.rounds 0 (s.cpus cpu).wakeups =
      some (nodes.getLastD 0, others.headD 0) := walk_eq 0 spelled short
  have inserted := holds.insert parts notNull fresh
  have before : ∀ node ∈ nodes,
      (s.mem node).wakeupTime < (s.mem thread).wakeupTime := fun node member => by
    simpa [earlier] using List.mem_takeWhile_imp member
  have behind : ∀ node ∈ others.head?,
      (s.mem thread).wakeupTime ≤ (s.mem node).wakeupTime := by
    intro node member
    have failed := List.head?_dropWhile_not earlier (lists (.wakeups cpu))
    rw [Option.mem_def.mp member] at failed
    simpa [earlier] using failed
  by_cases isFirst : nodes.getLastD 0 = 0
  · rw [if_pos isFirst, if_pos isFirst] at inserted
    refine ⟨(s.setWakeups cpu thread).setNext thread (others.headD 0), nodes,
      others, ?_, (Effect.setWakeups _).relink (Effect.setNext _),
      parts, before, behind, ?_, ?_⟩
    · rw [Scheduler.insertWakeup, found]
      simp only [Option.map_some, isFirst, ne_eq, not_true_eq_false, if_false]
    · rw [Lists, next_setNext, next_setWakeups, head_setNext, head_setWakeups]
      exact inserted
    · rw [load_setNext, load_setWakeups]
  · rw [if_neg isFirst, if_neg isFirst, Function.update_eq_self] at inserted
    refine ⟨(s.setNext (nodes.getLastD 0) thread).setNext thread
        (others.headD 0), nodes, others, ?_,
      (Effect.setNext _).relink (Effect.setNext _),
      parts, before, behind, ?_, ?_⟩
    · rw [Scheduler.insertWakeup, found]
      simp only [Option.map_some, ne_eq, isFirst, not_false_eq_true, if_true]
    · rw [Lists, next_setNext, next_setNext, head_setNext, head_setNext]
      exact inserted
    · rw [load_setNext, load_setNext]

/-- The first sleeper is moved to the threads of the least loaded processor. -/
theorem Lists.wake
    {others : List Nat}
    (holds : s.Lists lists)
    (parts : lists (.wakeups cpu) = thread :: others) :
    ((s.schedulerAddThread thread).setWakeups cpu (s.next thread)).Lists
      (Function.update (Function.update lists (.wakeups cpu) others)
        (.threads (leastLoaded s.cpus s.numCpus))
        (thread :: lists (.threads (leastLoaded s.cpus s.numCpus)))) := by
  have spelled := holds.spells (.wakeups cpu)
  rw [parts] at spelled
  have left := holds.pop parts
  have fresh : ∀ queue,
      thread ∉ Function.update lists (.wakeups cpu) others queue := by
    intro queue member
    by_cases same : queue = .wakeups cpu
    · rw [same, Function.update_self] at member
      exact (List.nodup_cons.mp spelled.nodup).1 member
    · rw [Function.update_of_ne same] at member
      refine same (holds.separate queue (.wakeups cpu) thread member ?_)
      rw [parts]
      exact List.mem_cons_self
  have pushed := left.push (.threads (leastLoaded s.cpus s.numCpus))
    spelled.2.1 fresh
  rw [Function.update_of_ne (by simp), Function.update_of_ne (by simp),
    Function.update_comm (by simp)] at pushed
  rw [Lists, Scheduler.schedulerAddThread, next_setWakeups, next_setThreads,
    next_setNext, next_countThread, head_setWakeups, head_setThreads,
    head_setNext, head_countThread]
  exact pushed

end Scheduler
end PivotOs
