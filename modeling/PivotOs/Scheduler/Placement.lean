import PivotOs.Scheduler.Invariant

/-!
# Where the threads are

A sleeper that is woken goes to the threads of the least loaded processor, but
it runs on the processor that wakes it.  Where these are the same, every
thread that has not exited is on one list, a thread runs on one processor at
most and on the one whose list holds it, and a thread that has exited does not
come back.
-/

namespace PivotOs

open LinkedList

namespace Scheduler

variable {s after last : Scheduler} {lists final : Queue → List Nat}
  {cpu thread : Nat}

/-- A thread is on a list. -/
def OnList (s : Scheduler) (queue : Queue) (thread : Nat) : Prop :=
  ∃ nodes, Spells s.next 0 (s.head queue) nodes ∧ thread ∈ nodes

/-- Where the threads are. -/
structure Placed (s : Scheduler) : Prop where
  /-- What has not exited is on one list of one processor. -/
  listed : ∀ thread ∈ s.added, thread ∉ s.exited →
    ∃! queue : Queue, queue.cpu < s.numCpus ∧ s.OnList queue thread
  /-- A thread runs on one processor at most. -/
  once : ∀ cpu other, s.cur cpu ≠ 0 → s.cur cpu = s.cur other → cpu = other
  /-- It is on the list of the processor that runs it. -/
  own : ∀ cpu, s.cur cpu ≠ 0 → s.OnList (.threads cpu) (s.cur cpu)
  /-- What has exited stays dead, and once it has been switched away from it
  is on no list. -/
  exited : ∀ thread ∈ s.exited, s.status thread = .dead ∧
    ((∀ cpu, s.cur cpu ≠ thread) → ∀ queue, ¬ s.OnList queue thread)

/-- A thread that the timer wakes goes to the processor that wakes it, and a
thread that has exited does not go to sleep. -/
def Orderly (s : Scheduler) (call : Call) : Prop :=
  s.WakesHere call ∧
    match call with
    | .sleep cpu _ => s.status (s.cur cpu) ≠ .dead
    | _ => True

instance (s : Scheduler) : (call : Call) → Decidable (s.Orderly call)
  | .timer _ _ _ _ => inferInstanceAs (Decidable (_ ∧ True))
  | .sleep _ _ => inferInstanceAs (Decidable (_ ∧ _))
  | .dead _ => inferInstanceAs (Decidable (_ ∧ True))
  | .add _ => inferInstanceAs (Decidable (_ ∧ True))

/-- What has exited is dead, and on a list only while it is current. -/
def Gone (s : Scheduler) (lists : Queue → List Nat) : Prop :=
  ∀ thread ∈ s.exited, s.status thread = .dead ∧
    ∀ queue, thread ∈ lists queue → ∃ cpu, s.cur cpu = thread

theorem Inv.onList_iff
    (inv : s.Inv lists)
    (queue : Queue) (thread : Nat) :
    s.OnList queue thread ↔ thread ∈ lists queue := by
  constructor
  · rintro ⟨nodes, spelled, member⟩
    rwa [spelled.unique (inv.holds.spells queue)] at member
  · exact fun member => ⟨_, inv.holds.spells queue, member⟩

theorem Inv.placed (inv : s.Inv lists) (gone : s.Gone lists) : s.Placed where
  listed := by
    intro thread added alive
    obtain ⟨queue, member⟩ := inv.live thread added alive
    refine ⟨queue, ⟨inv.cpu_lt member, (inv.onList_iff _ _).mpr member⟩, ?_⟩
    rintro other ⟨-, again⟩
    exact inv.holds.separate _ _ _ ((inv.onList_iff _ _).mp again) member
  once := by
    intro cpu other busy same
    have member := inv.own other (same ▸ busy)
    rw [← same] at member
    exact Queue.threads.inj
      (inv.holds.separate _ _ _ (inv.own cpu busy) member)
  own := fun cpu busy => (inv.onList_iff _ _).mpr (inv.own cpu busy)
  exited := by
    intro thread exited
    obtain ⟨dead, current⟩ := gone thread exited
    refine ⟨dead, fun away queue listed => ?_⟩
    obtain ⟨cpu, same⟩ := current queue ((inv.onList_iff _ _).mp listed)
    exact away cpu same

/-! ## What has exited stays away -/

/-- A listed thread that has exited is current where it is listed. -/
theorem Gone.eq_cur
    {queue : Queue}
    (gone : s.Gone lists)
    (inv : s.Inv lists)
    (exited : thread ∈ s.exited)
    (member : thread ∈ lists queue) :
    queue = .threads queue.cpu ∧ s.cur queue.cpu = thread := by
  obtain ⟨cpu, same⟩ := (gone thread exited).2 queue member
  have notNull : thread ≠ 0 := (inv.holds.spells queue).ne_null member
  have own := inv.own cpu (same ▸ notNull)
  rw [same] at own
  obtain rfl := inv.holds.separate _ _ _ member own
  exact ⟨rfl, same⟩

/-- Putting the current thread away. -/
theorem Away.gone
    {middle : Scheduler}
    (away : Away cpu s middle lists final)
    (inv : s.Inv lists)
    (running : s.cur cpu ≠ 0)
    (gone : s.Gone lists) :
    middle.Gone final ∧
      (middle.cur cpu = 0 ∨ middle.cur cpu ∉ middle.exited) := by
  have member := inv.own cpu running
  cases away with
  | ready alive awake effect =>
      have apart : s.cur cpu ∉ s.exited := fun exited =>
        alive (gone _ exited).1
      unfold Gone
      rw [effect.status, effect.cur, effect.exited]
      refine ⟨fun thread exited => ?_, Or.inr apart⟩
      have different : thread ≠ s.cur cpu := by
        rintro rfl
        exact apart exited
      rw [Function.update_of_ne different]
      exact gone thread exited
  | dead died effect =>
      unfold Gone
      rw [effect.status, effect.cur, effect.exited, Function.update_self]
      refine ⟨fun thread exited => ⟨(gone thread exited).1, ?_⟩, Or.inl rfl⟩
      intro queue listed
      obtain ⟨different, before⟩ := (inv.holds.mem_erase_iff member).mp listed
      obtain ⟨other, same⟩ := (gone thread exited).2 queue before
      refine ⟨other, ?_⟩
      rw [Function.update_of_ne, same]
      rintro rfl
      exact different same.symm
  | sleep nodes others asleep effect parts before behind =>
      have moved := inv.holds.moved_to_wakeups member parts
      unfold Gone
      rw [effect.status, effect.cur, effect.exited, Function.update_self]
      refine ⟨fun thread exited => ⟨(gone thread exited).1, ?_⟩, Or.inl rfl⟩
      intro queue listed
      rcases (moved queue thread).mp listed with ⟨rfl, -⟩ | ⟨different, old⟩
      · have dead := (gone _ exited).1
        rw [asleep] at dead
        exact absurd dead (by decide)
      · obtain ⟨other, same⟩ := (gone thread exited).2 queue old
        refine ⟨other, ?_⟩
        rw [Function.update_of_ne, same]
        rintro rfl
        exact different same.symm

/-- Making another thread current, when the current one has not exited. -/
theorem Gone.enter
    (gone : s.Gone lists)
    (inv : s.Inv lists)
    (alive : s.cur cpu = 0 ∨ s.cur cpu ∉ s.exited)
    (fresh : thread ∉ s.exited)
    (effect : Effect s after (Function.update s.status thread .ready)
      (Function.update s.cur cpu thread))
    (within : ∀ queue, ∀ other ∈ final queue, other ≠ thread →
      other ∈ lists queue) :
    after.Gone final := by
  unfold Gone
  rw [effect.status, effect.cur, effect.exited]
  intro other exited
  have different : other ≠ thread := by
    rintro rfl
    exact fresh exited
  rw [Function.update_of_ne different]
  refine ⟨(gone other exited).1, fun queue listed => ?_⟩
  have before := within queue other listed different
  obtain ⟨owner, same⟩ := (gone other exited).2 queue before
  refine ⟨owner, ?_⟩
  rw [Function.update_of_ne, same]
  rintro rfl
  rcases alive with stopped | living
  · exact (inv.holds.spells queue).ne_null before (same ▸ stopped)
  · exact living (same ▸ exited)

/-- Picking the next thread. -/
theorem Picked.gone
    (picked : Picked cpu s after lists final)
    (inv : s.Inv lists)
    (alive : s.cur cpu = 0 ∨ s.cur cpu ∉ s.exited)
    (gone : s.Gone lists) :
    after.Gone final := by
  cases picked with
  | wake thread others parts due effect =>
      have member : thread ∈ lists (.wakeups cpu) :=
        parts ▸ List.mem_cons_self
      have moved := inv.holds.moved_to_threads parts
      refine gone.enter inv alive (fun exited => ?_) effect ?_
      · exact absurd (gone.eq_cur inv exited member).1 (by simp)
      · intro queue other listed different
        rcases (moved queue other).mp listed with ⟨same, -⟩ | ⟨-, before⟩
        · exact absurd same different
        · exact before
  | next thread member effect =>
      refine gone.enter inv alive (fun exited => ?_) effect
        fun _ _ listed _ => listed
      obtain ⟨-, same⟩ := gone.eq_cur inv exited member
      have same : s.cur cpu = thread := same
      rcases alive with stopped | living
      · exact (inv.holds.spells _).ne_null member (same ▸ stopped)
      · exact living (same ▸ exited)
  | idle empty effect =>
      unfold Gone
      rw [effect.status, effect.cur, effect.exited]
      intro other exited
      have different : other ≠ s.idle := by
        rintro rfl
        exact inv.idle (inv.exited _ exited)
      rw [Function.update_of_ne different]
      exact gone other exited

theorem Scheduled.gone
    (scheduled : Scheduled cpu s after lists final)
    (inv : s.Inv lists)
    (gone : s.Gone lists) :
    after.Gone final := by
  cases scheduled with
  | kept running awake unchanged effect =>
      unfold Gone
      rw [effect.status, effect.cur, effect.exited, unchanged]
      exact gone
  | resumed stopped picked => exact picked.gone inv (Or.inl stopped) gone
  | switched middle between running middleInv away picked =>
      obtain ⟨stays, alive⟩ := away.gone inv running gone
      exact picked.gone middleInv alive stays

/-- A thread that has exited does not ask to sleep. -/
theorem Gone.sleep
    (status : CpuStatus)
    (gone : s.Gone lists)
    (awake : s.status (s.cur cpu) ≠ .dead) :
    (s.threadSleepSyscall cpu status).Gone lists := by
  intro thread exited
  obtain ⟨dead, current⟩ := gone thread exited
  have different : thread ≠ (s.cpus cpu).cur := by
    rintro rfl
    exact awake dead
  refine ⟨?_, current⟩
  simpa [threadSleepSyscall, Scheduler.status, mem_onThread, different]
    using dead

/-- A thread that exits is current. -/
theorem Gone.die (gone : s.Gone lists) :
    (s.threadDeadSyscall cpu).Gone lists := by
  intro thread exited
  have effect : Effect s (s.setStatus (s.cur cpu) .dead) _ _ :=
    Effect.setStatus .dead
  have status_eq : (s.threadDeadSyscall cpu).status =
      Function.update s.status (s.cur cpu) .dead := effect.status
  rw [status_eq]
  by_cases same : thread = s.cur cpu
  · rw [same, Function.update_self]
    exact ⟨rfl, fun _ _ => ⟨cpu, rfl⟩⟩
  · rw [Function.update_of_ne same]
    rcases List.mem_cons.mp exited with current | before
    · exact absurd current same
    · exact gone thread before

/-- A new thread has not exited. -/
theorem Gone.add
    (gone : s.Gone lists)
    (inv : s.Inv lists)
    (new : thread ∉ s.added) :
    ((s.makeThread thread).schedulerAddThread thread).Gone
      (Function.update lists (.threads (leastLoaded s.cpus s.numCpus))
        (thread :: lists (.threads (leastLoaded s.cpus s.numCpus)))) := by
  have fresh : ∀ queue, thread ∉ lists queue := fun queue member =>
    new (inv.known queue thread member)
  have moved := moved_push (.threads (leastLoaded s.cpus s.numCpus)) fresh
  have effect : Relinked (s.makeThread thread)
      ((s.makeThread thread).schedulerAddThread thread) :=
    Effect.schedulerAddThread
  intro other exited
  rw [effect.exited] at exited
  have different : other ≠ thread := by
    rintro rfl
    exact new (inv.exited other exited)
  rw [effect.status, effect.cur]
  obtain ⟨dead, current⟩ := gone other exited
  refine ⟨?_, fun queue listed => ?_⟩
  · simpa [makeThread, Scheduler.status, mem_onThread, different]
      using dead
  · rcases (moved queue other).mp listed with ⟨same, -⟩ | ⟨-, before⟩
    · exact absurd same different
    · exact current queue before

/-- Every orderly step leaves what has exited where it is. -/
theorem Gone.step
    {call : Call}
    (gone : s.Gone lists)
    (inv : s.Inv lists)
    (orderly : s.Orderly call)
    (stepped : s.step call = some after) :
    ∃ final, after.Inv final ∧ after.Gone final := by
  obtain ⟨here, awake⟩ := orderly
  obtain ⟨final, kept, done⟩ := inv.step here stepped
  refine ⟨final, kept, ?_⟩
  cases done with
  | @timer cpu ticks curStatus frame result _ scheduled =>
      have before : (s.setTicks cpu ticks).Gone lists := by
        unfold Gone
        rw [cur_setTicks]
        exact gone
      exact scheduled.gone (inv.setTicks cpu ticks) before
  | sleep status running => exact gone.sleep status awake
  | dead running => exact gone.die
  | add new => exact gone.add inv new

/-- In every run of orderly steps from empty lists, every thread that has not
exited is on one list, what runs is on the list of the processor that runs it
and of no other, and what has exited stays away; and the next interrupt
returns. -/
theorem threads_placed
    (s last : Scheduler) (calls : List Call)
    (empty : s.Empty)
    (orderly : Runs.Along step Orderly s calls)
    (ran : Runs.run step s calls = some last) :
    last.Placed ∧
      ∀ cpu ticks curStatus frame, cpu < last.numCpus →
        last.Orderly (.timer cpu ticks curStatus frame) →
          (last.step (.timer cpu ticks curStatus frame)).isSome := by
  have start : ∃ lists, s.Inv lists ∧ s.Gone lists := by
    refine ⟨_, empty.inv, fun thread exited => ?_⟩
    rw [empty.records.2.1] at exited
    simp at exited
  obtain ⟨lists, inv, gone⟩ := Runs.run_invariant_along
    (fun s : Scheduler => ∃ lists, s.Inv lists ∧ s.Gone lists)
    (by
      rintro state call next ⟨lists, inv, gone⟩ allowed stepped
      exact gone.step inv allowed stepped)
    start orderly ran
  refine ⟨inv.placed gone, fun cpu ticks curStatus frame within allowed => ?_⟩
  obtain ⟨after, final, returned, -, -⟩ := inv.timer within allowed.1
  rw [returned]
  rfl

/-! ## Two processors -/

theorem blank_nonzero : 0#8 ∉ ([] : List (BitVec 8)) :=
  List.not_mem_nil

/-- Empty lists; every structure in memory is blank, and the idle thread is at
address 1. -/
def sample (numCpus : Nat) : Scheduler where
  mem := fun _ =>
    { name := ⟨[], blank_nonzero, by decide⟩
      stack := 0
      status := .new
      ticks := 0
      ef := 0
      saved := zeroStatus
      wakeupTime := 0
      vmm :=
        { flags := 0#64
          p4Tbl := 0#64
          bm := { size := 0, bsize := 0, used := 0, ffa := 0, bm := 0 } }
      heap := 0
      next := 0 }
  cpus := fun _ =>
    { threads := 0
      wakeups := 0
      cur := 0
      numThreads := 0
      ticks := 0
      cr3 := 0#64 }
  numCpus := numCpus
  idle := 1
  added := []
  exited := []
  asleep := []

theorem sample_empty {numCpus : Nat} (some : 0 < numCpus) :
    (sample numCpus).Empty where
  numCpus_pos := some
  unused := fun _ => ⟨rfl, rfl, rfl, rfl⟩
  records := ⟨rfl, rfl, rfl⟩

/-- Three threads on two processors; one sleeps and is woken where it ran
before. -/
def sampleCalls : List Call :=
  [.add 2, .add 3, .timer 0 1 0 zeroStatus, .timer 1 1 0 zeroStatus, .add 4,
    .sleep 1 zeroStatus, .timer 1 1 0 zeroStatus]

theorem threads_placed_sample :
    ∃ last, Runs.run step (sample 2) sampleCalls = some last ∧
      last.Placed := by
  obtain ⟨last, ran⟩ := Option.isSome_iff_exists.mp
    (show (Runs.run step (sample 2) sampleCalls).isSome by decide)
  exact ⟨last, ran, (threads_placed (sample 2) last sampleCalls
    (sample_empty (by decide)) (by decide) ran).1⟩

/-- A thread sleeps until the next interrupt, which wakes it for the other
processor; the next interrupt of that processor runs it there too. -/
def strayCalls : List Call :=
  [.add 2, .timer 0 1 0 zeroStatus, .sleep 0 zeroStatus,
    .timer 0 1 0 zeroStatus, .timer 1 1 0 zeroStatus]

/-- A thread that is woken may run on two processors. -/
theorem woken_on_two_processors :
    (sample 2).Empty ∧
      ∃ last, Runs.run step (sample 2) strayCalls = some last ∧
        last.cur 0 = 2 ∧ last.cur 1 = 2 ∧ ¬ last.Placed := by
  have ends : (Runs.run step (sample 2) strayCalls).map
      (fun last => (last.cur 0, last.cur 1)) = some (2, 2) := by decide
  obtain ⟨last, ran, both⟩ := Option.map_eq_some_iff.mp ends
  obtain ⟨first, second⟩ := Prod.mk.inj both
  refine ⟨sample_empty (by decide), last, ran, first, second, fun placed => ?_⟩
  have same := placed.once 0 1 (by rw [first]; decide) (first.trans second.symm)
  exact absurd same (by decide)

end Scheduler
end PivotOs
