import PivotOs.Scheduler.Placement

/-!
# The sleepers

A thread that is switched away from while it sleeps is put among the sleepers
of its processor in the order of `wakeup_time`, and it stays there until it is
due and first.  With a single processor a thread is always woken where it
runs, so this holds of every run.
-/

namespace PivotOs

open LinkedList

namespace Scheduler

variable {s after last : Scheduler} {lists final : Queue → List Nat}
  {cpu thread : Nat}

/-- The sleepers are in order, and they are the threads that have been
recorded. -/
structure Ordered (s : Scheduler) (lists : Queue → List Nat) : Prop where
  /-- Earlier sleepers come first. -/
  sorted : ∀ cpu, (lists (.wakeups cpu)).Pairwise
    fun left right => s.wakeupTime left ≤ s.wakeupTime right
  /-- The sleepers are those that fell asleep and were not woken. -/
  asleep : ∀ thread, thread ∈ s.asleep ↔ ∃ cpu, thread ∈ lists (.wakeups cpu)

/-- The two lists of a single processor. -/
structure Single (s : Scheduler) (threads wakeups : List Nat) : Prop where
  /-- The threads, with no cycle. -/
  threads_eq : Spells s.next 0 (s.cpus 0).threads threads
  /-- The sleepers, with no cycle. -/
  wakeups_eq : Spells s.next 0 (s.cpus 0).wakeups wakeups
  /-- The sleepers are sorted. -/
  sorted : wakeups.Pairwise
    fun left right => s.wakeupTime left ≤ s.wakeupTime right
  /-- They are the threads that were switched away from in status `SLEEP` and
  not woken. -/
  asleep : ∀ thread, thread ∈ wakeups ↔ thread ∈ s.asleep
  /-- The lists share no thread. -/
  disjoint : threads.Disjoint wakeups
  /-- No thread that has not exited is lost. -/
  live : ∀ thread ∈ s.added, thread ∉ s.exited →
    thread ∈ threads ∨ thread ∈ wakeups

/-- The record after a timer interrupt. -/
theorem mem_asleepAfter :
    thread ∈ s.asleepAfter cpu after ↔
      (thread ∈ s.asleep ∨ thread = s.cur cpu ∧ s.cur cpu ≠ 0 ∧
        s.status (s.cur cpu) = .sleep) ∧ thread ≠ after.cur cpu := by
  have unfolded : s.asleepAfter cpu after =
      (if s.cur cpu ≠ 0 ∧ s.status (s.cur cpu) = .sleep
        then s.cur cpu :: s.asleep
        else s.asleep).filter fun thread => thread ≠ after.cur cpu := rfl
  rw [unfolded, List.mem_filter, decide_eq_true_iff]
  refine and_congr ?_ Iff.rfl
  by_cases slept : s.cur cpu ≠ 0 ∧ s.status (s.cur cpu) = .sleep
  · rw [if_pos slept, List.mem_cons, or_comm]
    simp [slept.1, slept.2]
  · rw [if_neg slept]
    exact ⟨Or.inl, fun either => either.resolve_right fun new => slept new.2⟩

/-! ## Order -/

/-- Inserting behind the sleepers that wake earlier keeps the order. -/
theorem sorted_insert
    {time : Nat → Nat} {nodes others : List Nat}
    (sorted : (nodes ++ others).Pairwise
      fun left right => time left ≤ time right)
    (before : ∀ node ∈ nodes, time node < time thread)
    (behind : ∀ node ∈ others.head?, time thread ≤ time node) :
    (nodes ++ thread :: others).Pairwise
      fun left right => time left ≤ time right := by
  obtain ⟨first, rest, across⟩ := List.pairwise_append.mp sorted
  refine List.pairwise_append.mpr ⟨first, List.pairwise_cons.mpr ⟨?_, rest⟩, ?_⟩
  · intro node member
    cases others with
    | nil => simp at member
    | cons other others =>
        have next : time thread ≤ time other := behind other rfl
        rcases List.mem_cons.mp member with rfl | later
        · exact next
        · exact next.trans ((List.pairwise_cons.mp rest).1 node later)
  · intro node member other listed
    rcases List.mem_cons.mp listed with rfl | later
    · exact Nat.le_of_lt (before node member)
    · exact across node member other later

theorem Away.sorted
    {middle : Scheduler}
    (away : Away cpu s middle lists final)
    (sorted : ∀ cpu, (lists (.wakeups cpu)).Pairwise
      fun left right => s.wakeupTime left ≤ s.wakeupTime right)
    (other : Nat) :
    (final (.wakeups other)).Pairwise
      fun left right => middle.wakeupTime left ≤ middle.wakeupTime right := by
  cases away with
  | ready alive awake effect =>
      rw [effect.wakeupTime]
      exact sorted other
  | dead died effect =>
      rw [effect.wakeupTime, Function.update_of_ne (by simp)]
      exact sorted other
  | sleep nodes others asleep effect parts before behind =>
      rw [effect.wakeupTime]
      by_cases same : other = cpu
      · rw [same, Function.update_self]
        exact sorted_insert (parts ▸ sorted cpu) before behind
      · rw [Function.update_of_ne (by simpa using same),
          Function.update_of_ne (by simp)]
        exact sorted other

theorem Picked.sorted
    (picked : Picked cpu s after lists final)
    (sorted : ∀ cpu, (lists (.wakeups cpu)).Pairwise
      fun left right => s.wakeupTime left ≤ s.wakeupTime right)
    (other : Nat) :
    (final (.wakeups other)).Pairwise
      fun left right => after.wakeupTime left ≤ after.wakeupTime right := by
  cases picked with
  | wake thread others parts due effect =>
      rw [effect.wakeupTime, Function.update_of_ne (by simp)]
      by_cases same : other = cpu
      · have old := sorted cpu
        rw [parts] at old
        rw [same, Function.update_self]
        exact (List.pairwise_cons.mp old).2
      · rw [Function.update_of_ne (by simpa using same)]
        exact sorted other
  | next thread member effect =>
      rw [effect.wakeupTime]
      exact sorted other
  | idle empty effect =>
      rw [effect.wakeupTime]
      exact sorted other

/-! ## Who sleeps -/

/-- Putting the current thread away adds it to the sleepers exactly when it
sleeps. -/
theorem Away.mem_wakeups
    {middle : Scheduler}
    (away : Away cpu s middle lists final)
    (inv : s.Inv lists)
    (running : s.cur cpu ≠ 0)
    (other : Nat) :
    thread ∈ final (.wakeups other) ↔
      thread ∈ lists (.wakeups other) ∨
        other = cpu ∧ thread = s.cur cpu ∧ s.status (s.cur cpu) = .sleep := by
  have member := inv.own cpu running
  cases away with
  | ready alive awake effect => simp [awake]
  | dead died effect =>
      rw [Function.update_of_ne (by simp)]
      simp [died]
  | sleep nodes others asleep effect parts before behind =>
      have moved := inv.holds.moved_to_wakeups member parts
      rw [moved]
      constructor
      · rintro (⟨rfl, same⟩ | ⟨-, old⟩)
        · exact Or.inr ⟨Queue.wakeups.inj same, rfl, asleep⟩
        · exact Or.inl old
      · rintro (old | ⟨rfl, rfl, -⟩)
        · refine Or.inr ⟨?_, old⟩
          rintro rfl
          have clash := inv.holds.separate _ _ _ old member
          simp at clash
        · exact Or.inl ⟨rfl, rfl⟩

/-- Picking the next thread removes it from the sleepers. -/
theorem Picked.mem_wakeups
    (picked : Picked cpu s after lists final)
    (inv : s.Inv lists)
    (other : Nat) :
    thread ∈ final (.wakeups other) ↔
      thread ∈ lists (.wakeups other) ∧ thread ≠ after.cur cpu := by
  cases picked with
  | wake woken others parts due effect =>
      have moved := inv.holds.moved_to_threads parts
      rw [moved, effect.cur, Function.update_self]
      simp [and_comm]
  | next picked member effect =>
      rw [effect.cur, Function.update_self, iff_self_and]
      rintro listed rfl
      have clash := inv.holds.separate _ _ _ listed member
      simp at clash
  | idle empty effect =>
      have stopped : s.cur cpu = 0 := by
        by_contra running
        have member := inv.own cpu running
        rw [empty] at member
        simp at member
      rw [effect.cur, stopped, iff_self_and]
      exact fun listed => (inv.holds.spells _).ne_null listed

theorem Scheduled.mem_wakeups
    (scheduled : Scheduled cpu s after lists final)
    (inv : s.Inv lists)
    (other : Nat) :
    thread ∈ final (.wakeups other) ↔
      (thread ∈ lists (.wakeups other) ∨
        other = cpu ∧ thread = s.cur cpu ∧ s.cur cpu ≠ 0 ∧
          s.status (s.cur cpu) = .sleep) ∧ thread ≠ after.cur cpu := by
  cases scheduled with
  | kept running awake unchanged effect =>
      rw [unchanged, effect.cur]
      simp only [awake, and_false, or_false, iff_self_and]
      rintro listed rfl
      have clash := inv.holds.separate _ _ _ listed (inv.own cpu running)
      simp at clash
  | resumed stopped picked =>
      rw [picked.mem_wakeups inv other]
      simp [stopped]
  | switched middle between running middleInv away picked =>
      rw [picked.mem_wakeups middleInv other,
        away.mem_wakeups inv running other]
      simp [running]

/-- Putting a thread away leaves the times alone. -/
theorem Away.times
    {middle : Scheduler}
    (away : Away cpu s middle lists final) :
    middle.wakeupTime = s.wakeupTime ∧ middle.ticks = s.ticks := by
  cases away with
  | ready alive awake effect => exact ⟨effect.wakeupTime, effect.ticks⟩
  | dead died effect => exact ⟨effect.wakeupTime, effect.ticks⟩
  | sleep nodes others asleep effect parts before behind =>
      exact ⟨effect.wakeupTime, effect.ticks⟩

/-- A sleeper that is picked is due. -/
theorem Picked.due
    {other : Nat}
    (picked : Picked cpu s after lists final)
    (inv : s.Inv lists)
    (listed : thread ∈ lists (.wakeups other))
    (gone : thread ∉ final (.wakeups other)) :
    other = cpu ∧ s.wakeupTime thread ≤ s.ticks cpu := by
  cases picked with
  | wake woken others parts due effect =>
      have moved := inv.holds.moved_to_threads parts
      have same : thread = woken := by
        by_contra different
        exact gone ((moved _ _).mpr (Or.inr ⟨different, listed⟩))
      subst same
      have member : thread ∈ lists (.wakeups cpu) :=
        parts ▸ List.mem_cons_self
      exact ⟨Queue.wakeups.inj (inv.holds.separate _ _ _ listed member), due⟩
  | next picked member effect => exact absurd listed gone
  | idle empty effect => exact absurd listed gone

/-- A sleeper that an interrupt takes off its list is due. -/
theorem Scheduled.due
    {other : Nat}
    (scheduled : Scheduled cpu s after lists final)
    (inv : s.Inv lists)
    (listed : thread ∈ lists (.wakeups other))
    (gone : thread ∉ final (.wakeups other)) :
    other = cpu ∧ s.wakeupTime thread ≤ s.ticks cpu := by
  cases scheduled with
  | kept running awake unchanged effect =>
      exact absurd (unchanged ▸ listed) gone
  | resumed stopped picked => exact picked.due inv listed gone
  | switched middle between running middleInv away picked =>
      obtain ⟨wakeupTime_eq, ticks_eq⟩ := away.times
      rw [← wakeupTime_eq, ← ticks_eq]
      exact picked.due middleInv
        ((away.mem_wakeups inv running other).mpr (Or.inl listed)) gone

theorem Scheduled.sorted
    (scheduled : Scheduled cpu s after lists final)
    (sorted : ∀ cpu, (lists (.wakeups cpu)).Pairwise
      fun left right => s.wakeupTime left ≤ s.wakeupTime right)
    (other : Nat) :
    (final (.wakeups other)).Pairwise
      fun left right => after.wakeupTime left ≤ after.wakeupTime right := by
  cases scheduled with
  | kept running awake unchanged effect =>
      rw [effect.wakeupTime, unchanged]
      exact sorted other
  | resumed stopped picked => exact picked.sorted sorted other
  | switched middle between running middleInv away picked =>
      exact picked.sorted (away.sorted sorted) other

/-- The clock and the number of processors are not touched. -/
theorem Picked.fixed (picked : Picked cpu s after lists final) :
    after.ticks = s.ticks ∧ after.numCpus = s.numCpus := by
  cases picked with
  | wake woken others parts due effect => exact ⟨effect.ticks, effect.numCpus⟩
  | next picked member effect => exact ⟨effect.ticks, effect.numCpus⟩
  | idle empty effect => exact ⟨effect.ticks, effect.numCpus⟩

theorem Scheduled.fixed (scheduled : Scheduled cpu s after lists final) :
    after.ticks = s.ticks ∧ after.numCpus = s.numCpus := by
  cases scheduled with
  | kept running awake unchanged effect =>
      exact ⟨effect.ticks, effect.numCpus⟩
  | resumed stopped picked => exact picked.fixed
  | switched middle between running middleInv away picked =>
      obtain ⟨ticks_eq, numCpus_eq⟩ := picked.fixed
      exact ⟨ticks_eq.trans away.times.2, numCpus_eq.trans away.numCpus⟩

/-! ## Runs -/

theorem Ordered.timer
    {ticks : Nat} {result : Scheduler}
    (ordered : s.Ordered lists)
    (inv : s.Inv lists)
    (scheduled : Scheduled cpu (s.setTicks cpu ticks) result lists final) :
    { result with asleep := s.asleepAfter cpu result }.Ordered final := by
  refine ⟨scheduled.sorted ordered.sorted, fun thread => ?_⟩
  change thread ∈ s.asleepAfter cpu result ↔ _
  rw [mem_asleepAfter, ordered.asleep]
  simp only [scheduled.mem_wakeups (inv.setTicks cpu ticks), cur_setTicks,
    status_setTicks]
  constructor
  · rintro ⟨⟨other, listed⟩ | slept, apart⟩
    · exact ⟨other, Or.inl listed, apart⟩
    · exact ⟨cpu, Or.inr ⟨rfl, slept⟩, apart⟩
  · rintro ⟨other, listed | ⟨-, slept⟩, apart⟩
    · exact ⟨Or.inl ⟨other, listed⟩, apart⟩
    · exact ⟨Or.inr slept, apart⟩

/-- The sleepers stay in order as long as they and the time at which each is
due stay the same. -/
theorem Ordered.congr
    (ordered : s.Ordered lists)
    (lists_eq : ∀ cpu, final (.wakeups cpu) = lists (.wakeups cpu))
    (asleep_eq : after.asleep = s.asleep)
    (time_eq : ∀ cpu, ∀ thread ∈ lists (.wakeups cpu),
      after.wakeupTime thread = s.wakeupTime thread) :
    after.Ordered final := by
  refine ⟨fun other => ?_, fun thread => ?_⟩
  · rw [lists_eq]
    refine (ordered.sorted other).imp_of_mem
      fun leftMember rightMember before => ?_
    rw [time_eq other _ leftMember, time_eq other _ rightMember]
    exact before
  · simp only [asleep_eq, lists_eq]
    exact ordered.asleep thread

/-- The thread that asks to sleep is not among the sleepers yet. -/
theorem Ordered.sleep
    (status : CpuStatus)
    (ordered : s.Ordered lists)
    (inv : s.Inv lists)
    (running : s.cur cpu ≠ 0) :
    (s.threadSleepSyscall cpu status).Ordered lists := by
  refine ordered.congr (fun _ => rfl) rfl fun other thread listed => ?_
  have different : thread ≠ (s.cpus cpu).cur := by
    rintro rfl
    have clash := inv.holds.separate _ _ _ listed (inv.own cpu running)
    simp at clash
  simp [threadSleepSyscall, wakeupTime, mem_onThread, different]

theorem Ordered.die (ordered : s.Ordered lists) :
    (s.threadDeadSyscall cpu).Ordered lists := by
  have effect : Effect s (s.setStatus (s.cur cpu) .dead) _ _ :=
    Effect.setStatus .dead
  exact ordered.congr (fun _ => rfl) rfl
    fun _ thread _ => congrFun effect.wakeupTime thread

/-- A new thread is not among the sleepers. -/
theorem Ordered.add
    (ordered : s.Ordered lists)
    (inv : s.Inv lists)
    (new : thread ∉ s.added) :
    ((s.makeThread thread).schedulerAddThread thread).Ordered
      (Function.update lists (.threads (leastLoaded s.cpus s.numCpus))
        (thread :: lists (.threads (leastLoaded s.cpus s.numCpus)))) := by
  have effect : Relinked (s.makeThread thread)
      ((s.makeThread thread).schedulerAddThread thread) :=
    Effect.schedulerAddThread
  refine ordered.congr (fun _ => Function.update_of_ne (by simp) _ _) rfl
    fun other listed member => ?_
  have different : listed ≠ thread := by
    rintro rfl
    exact new (inv.known _ _ member)
  rw [effect.wakeupTime]
  simp [makeThread, wakeupTime, mem_onThread, different]

/-- Every step keeps the order of the sleepers and their record. -/
theorem Stepped.ordered
    {call : Call}
    (done : Stepped s lists call after final)
    (inv : s.Inv lists)
    (ordered : s.Ordered lists) :
    after.Ordered final := by
  cases done with
  | timer ticks curStatus frame scheduled => exact ordered.timer inv scheduled
  | sleep status running => exact ordered.sleep status inv running
  | dead running => exact ordered.die
  | add new => exact ordered.add inv new

/-- A sleeper that a step takes off its list is due. -/
theorem Stepped.due
    {call : Call}
    (done : Stepped s lists call after final)
    (inv : s.Inv lists)
    (listed : thread ∈ lists (.wakeups cpu))
    (gone : thread ∉ final (.wakeups cpu)) :
    s.wakeupTime thread ≤ after.ticks cpu := by
  cases done with
  | @timer on ticks curStatus frame result _ scheduled =>
      obtain ⟨rfl, due⟩ := scheduled.due (inv.setTicks on ticks) listed gone
      change s.wakeupTime thread ≤ result.ticks cpu
      rw [scheduled.fixed.1]
      exact due
  | sleep status running => exact absurd listed gone
  | dead running => exact absurd listed gone
  | add new =>
      rw [Function.update_of_ne (by simp)] at gone
      exact absurd listed gone

theorem Stepped.numCpus
    {call : Call}
    (done : Stepped s lists call after final) :
    after.numCpus = s.numCpus := by
  cases done with
  | timer ticks curStatus frame scheduled => exact scheduled.fixed.2
  | sleep status running => rfl
  | dead running => rfl
  | add new => rfl

/-- With a single processor, a thread is woken where it runs. -/
theorem wakesHere_of_single
    {call : Call}
    (single : s.numCpus = 1)
    (stepped : s.step call = some after) :
    s.WakesHere call := by
  cases call with
  | timer cpu ticks curStatus frame =>
      intro _
      have exists_cpu : cpu < s.numCpus := by
        by_contra beyond
        simp [Scheduler.step, beyond] at stepped
      have chosen : leastLoaded s.cpus s.numCpus < s.numCpus :=
        leastLoaded_lt s.cpus (by omega)
      omega
  | sleep cpu status => trivial
  | dead cpu => trivial
  | add thread => trivial

theorem Inv.single
    (inv : s.Inv lists)
    (ordered : s.Ordered lists)
    (single : s.numCpus = 1) :
    s.Single (lists (.threads 0)) (lists (.wakeups 0)) where
  threads_eq := inv.holds.spells (.threads 0)
  wakeups_eq := inv.holds.spells (.wakeups 0)
  sorted := ordered.sorted 0
  asleep := by
    intro thread
    rw [ordered.asleep]
    constructor
    · exact fun listed => ⟨0, listed⟩
    · rintro ⟨cpu, listed⟩
      have within : cpu < s.numCpus := inv.cpu_lt listed
      obtain rfl : cpu = 0 := by omega
      exact listed
  disjoint := by
    intro thread first second
    have clash := inv.holds.separate _ _ _ first second
    simp at clash
  live := by
    intro thread added alive
    obtain ⟨queue, listed⟩ := inv.live thread added alive
    have within : queue.cpu < s.numCpus := inv.cpu_lt listed
    cases queue with
    | threads cpu =>
        obtain rfl : cpu = 0 := by
          simp only [Queue.cpu] at within
          omega
        exact Or.inl listed
    | wakeups cpu =>
        obtain rfl : cpu = 0 := by
          simp only [Queue.cpu] at within
          omega
        exact Or.inr listed

/-- With a single processor, in every run: the sleepers are sorted and are the
threads that were switched away from in status `SLEEP` and not woken, the two
lists share no thread and have no cycle, and no thread that has not exited is
lost; the next step takes only sleepers that are due off their list, and an
interrupt returns. -/
theorem sleepers_sorted
    (s last : Scheduler) (calls : List Call)
    (single : s.numCpus = 1)
    (empty : s.Empty)
    (ran : Runs.run step s calls = some last) :
    ∃ threads wakeups, last.Single threads wakeups ∧
      (∀ call after, last.step call = some after →
        ∀ later, Spells after.next 0 (after.cpus 0).wakeups later →
          ∀ thread ∈ wakeups, thread ∉ later →
            last.wakeupTime thread ≤ after.ticks 0) ∧
      ∀ ticks curStatus frame,
        (last.step (.timer 0 ticks curStatus frame)).isSome := by
  have start : ∃ lists, s.Inv lists ∧ s.Ordered lists ∧ s.numCpus = 1 := by
    refine ⟨_, empty.inv, ⟨fun _ => List.Pairwise.nil, fun thread => ?_⟩, single⟩
    simp [empty.records.2.2]
  obtain ⟨lists, inv, ordered, single⟩ := Runs.run_invariant
    (fun s : Scheduler =>
      ∃ lists, s.Inv lists ∧ s.Ordered lists ∧ s.numCpus = 1)
    (by
      rintro state call next ⟨lists, inv, ordered, single⟩ stepped
      obtain ⟨final, kept, done⟩ :=
        inv.step (wakesHere_of_single single stepped) stepped
      exact ⟨final, kept, done.ordered inv ordered,
        done.numCpus.trans single⟩)
    start ran
  refine ⟨_, _, inv.single ordered single, ?_, ?_⟩
  · intro call after stepped later spelled thread listed gone
    obtain ⟨final, kept, done⟩ :=
      inv.step (wakesHere_of_single single stepped) stepped
    refine done.due inv listed fun member => gone ?_
    rwa [spelled.unique (kept.holds.spells (.wakeups 0))]
  · intro ticks curStatus frame
    have within : 0 < last.numCpus := inv.numCpus_pos
    have here : last.WakesHere (.timer 0 ticks curStatus frame) := by
      intro _
      have chosen := leastLoaded_lt last.cpus within
      omega
    obtain ⟨after, final, returned, -, -⟩ := inv.timer within here
    rw [returned]
    rfl

/-- Two threads sleep, the later one for a shorter time. -/
def sleepCalls : List Call :=
  [.add 2, .add 3, .timer 0 1 0 zeroStatus,
    .sleep 0 { zeroStatus with rdi := 9#64 }, .timer 0 2 0 zeroStatus,
    .sleep 0 { zeroStatus with rdi := 3#64 }, .timer 0 3 0 zeroStatus,
    .timer 0 5 0 zeroStatus]

theorem sleepers_sorted_sample :
    ∃ last, Runs.run step (sample 1) sleepCalls = some last ∧
      ∃ threads wakeups, last.Single threads wakeups := by
  obtain ⟨last, ran⟩ := Option.isSome_iff_exists.mp
    (show (Runs.run step (sample 1) sleepCalls).isSome by decide +kernel)
  obtain ⟨threads, wakeups, lists, -, -⟩ := sleepers_sorted (sample 1) last
    sleepCalls rfl (sample_empty (by decide)) ran
  exact ⟨last, ran, threads, wakeups, lists⟩

end Scheduler
end PivotOs
