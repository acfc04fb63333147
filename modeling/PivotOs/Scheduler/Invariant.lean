import PivotOs.Scheduler.Steps

/-!
# The lists stay well formed

Whatever a step does, the lists stay lists and no thread that has not exited
is lost, as long as a thread is woken on the processor to whose list it is
added.  `schedule` is put together from its two halves, and returns: its loops
end because the lists do.
-/

namespace PivotOs

open LinkedList

namespace Scheduler

variable {s after : Scheduler} {lists final : Queue → List Nat}
  {cpu thread : Nat}

/-! ## The two halves -/

/-- A processor with something on a list exists. -/
theorem Inv.cpu_lt
    {queue : Queue}
    (inv : s.Inv lists)
    (member : thread ∈ lists queue) :
    queue.cpu < s.numCpus := by
  by_contra beyond
  rw [inv.outside queue (Nat.le_of_not_lt beyond)] at member
  simp at member

/-- An effect keeps the invariant when no thread comes from nowhere, none that
is alive is lost, none dies, and what runs is listed. -/
theorem Inv.effect
    {status : Nat → ThreadStatus} {cur : Nat → Nat}
    (inv : s.Inv lists)
    (effect : Effect s after status cur)
    (holds : after.Lists final)
    (comes : ∀ queue, ∀ thread ∈ final queue, ∃ other, thread ∈ lists other)
    (outside : ∀ queue, s.numCpus ≤ queue.cpu → final queue = [])
    (own : ∀ cpu, cur cpu ≠ 0 → cur cpu ∈ final (.threads cpu))
    (stays : ∀ queue, ∀ thread ∈ lists queue, thread ∉ s.exited →
      ∃ other, thread ∈ final other)
    (dies : ∀ thread ∈ s.added, status thread = .dead →
      s.status thread = .dead) :
    after.Inv final where
  holds := holds
  numCpus_pos := effect.numCpus ▸ inv.numCpus_pos
  known := by
    intro queue thread member
    obtain ⟨other, listed⟩ := comes queue thread member
    rw [effect.added]
    exact inv.known other thread listed
  outside := by
    rw [effect.numCpus]
    exact outside
  own := by
    rw [effect.cur]
    exact own
  live := by
    rw [effect.added, effect.exited]
    intro thread added alive
    obtain ⟨queue, member⟩ := inv.live thread added alive
    exact stays queue thread member alive
  exited := by
    rw [effect.added, effect.exited]
    exact inv.exited
  dead := by
    rw [effect.added, effect.exited, effect.status]
    exact fun thread added gone =>
      inv.dead thread added (dies thread added gone)
  idle := by
    rw [effect.idle, effect.added]
    exact inv.idle

/-- A thread that becomes ready does not die. -/
theorem dead_of_update_ready
    {other : Nat}
    (gone : Function.update s.status thread .ready other = .dead) :
    s.status other = .dead := by
  by_cases same : other = thread
  · rw [same, Function.update_self] at gone
    exact absurd gone (by decide)
  · rwa [Function.update_of_ne same] at gone

/-- Moving a thread from one list to another keeps the invariant. -/
theorem Inv.moved
    {status : Nat → ThreadStatus} {cur : Nat → Nat} {source place : Queue}
    (inv : s.Inv lists)
    (effect : Effect s after status cur)
    (holds : after.Lists final)
    (member : thread ∈ lists source)
    (moved : Moved thread place lists final)
    (exists_cpu : place.cpu < s.numCpus)
    (own : ∀ cpu, cur cpu ≠ 0 → cur cpu ∈ final (.threads cpu))
    (dies : ∀ thread ∈ s.added, status thread = .dead →
      s.status thread = .dead) :
    after.Inv final := by
  refine inv.effect effect holds ?_ ?_ own ?_ dies
  · intro queue other listed
    rcases (moved queue other).mp listed with ⟨rfl, -⟩ | ⟨-, before⟩
    · exact ⟨source, member⟩
    · exact ⟨queue, before⟩
  · intro queue beyond
    refine List.eq_nil_iff_forall_not_mem.mpr fun other listed => ?_
    rcases (moved queue other).mp listed with ⟨-, rfl⟩ | ⟨-, before⟩
    · exact absurd exists_cpu (Nat.not_lt_of_le beyond)
    · exact absurd (inv.cpu_lt before) (Nat.not_lt_of_le beyond)
  · intro queue other listed _
    by_cases same : other = thread
    · exact ⟨place, (moved place other).mpr (Or.inl ⟨same, rfl⟩)⟩
    · exact ⟨queue, (moved queue other).mpr (Or.inr ⟨same, listed⟩)⟩

/-- What runs on other processors is another thread. -/
theorem Inv.cur_ne
    {other : Nat}
    (inv : s.Inv lists)
    (different : other ≠ cpu)
    (busy : s.cur other ≠ 0)
    (member : thread ∈ lists (.threads cpu)) :
    s.cur other ≠ thread := by
  rintro rfl
  have same := inv.holds.separate _ _ _ (inv.own other busy) member
  exact different (Queue.threads.inj same)

theorem Away.inv
    (away : Away cpu s after lists final)
    (inv : s.Inv lists)
    (running : s.cur cpu ≠ 0)
    (holds : after.Lists final) :
    after.Inv final := by
  have member := inv.own cpu running
  cases away with
  | ready alive awake effect =>
      exact inv.effect effect holds (fun queue _ member => ⟨queue, member⟩)
        inv.outside inv.own (fun queue _ member _ => ⟨queue, member⟩)
        fun _ _ gone => dead_of_update_ready gone
  | dead gone effect =>
      refine inv.effect effect holds
        (fun queue _ listed =>
          ⟨queue, ((inv.holds.mem_erase_iff member).mp listed).2⟩) ?_ ?_ ?_
        fun _ _ => id
      · intro queue beyond
        refine List.eq_nil_iff_forall_not_mem.mpr fun other listed => ?_
        have before := ((inv.holds.mem_erase_iff member).mp listed).2
        exact absurd (inv.cpu_lt before) (Nat.not_lt_of_le beyond)
      · intro other busy
        by_cases same : other = cpu
        · rw [same, Function.update_self] at busy
          exact absurd rfl busy
        · rw [Function.update_of_ne same] at busy ⊢
          exact (inv.holds.mem_erase_iff member).mpr
            ⟨inv.cur_ne same busy member, inv.own other busy⟩
      · intro queue other listed alive
        refine ⟨queue, (inv.holds.mem_erase_iff member).mpr ⟨?_, listed⟩⟩
        rintro rfl
        exact alive (inv.dead _ (inv.known _ _ member) gone)
  | sleep nodes others asleep effect parts before behind =>
      have moved := inv.holds.moved_to_wakeups member parts
      have exists_cpu : cpu < s.numCpus := inv.cpu_lt member
      refine inv.moved effect holds member moved exists_cpu ?_
        fun _ _ => id
      intro other busy
      by_cases same : other = cpu
      · rw [same, Function.update_self] at busy
        exact absurd rfl busy
      · rw [Function.update_of_ne same] at busy ⊢
        exact (moved _ _).mpr
          (Or.inr ⟨inv.cur_ne same busy member, inv.own other busy⟩)

theorem Picked.inv
    (picked : Picked cpu s after lists final)
    (inv : s.Inv lists)
    (holds : after.Lists final) :
    after.Inv final := by
  cases picked with
  | wake thread others parts due effect =>
      have member : thread ∈ lists (.wakeups cpu) :=
        parts ▸ List.mem_cons_self
      have moved := inv.holds.moved_to_threads parts
      have exists_cpu : cpu < s.numCpus := inv.cpu_lt member
      refine inv.moved effect holds member moved exists_cpu ?_
        fun _ _ gone => dead_of_update_ready gone
      intro other busy
      by_cases same : other = cpu
      · have current : Function.update s.cur cpu thread cpu = thread :=
          Function.update_self cpu thread s.cur
        rw [same, current]
        exact (moved _ _).mpr (Or.inl ⟨rfl, rfl⟩)
      · rw [Function.update_of_ne same] at busy ⊢
        refine (moved _ _).mpr (Or.inr ⟨?_, inv.own other busy⟩)
        rintro rfl
        have clash := inv.holds.separate _ _ _ (inv.own other busy) member
        simp at clash
  | next thread member effect =>
      refine inv.effect effect holds (fun queue _ member => ⟨queue, member⟩)
        inv.outside ?_ (fun queue _ member _ => ⟨queue, member⟩)
        fun _ _ gone => dead_of_update_ready gone
      intro other busy
      by_cases same : other = cpu
      · rw [same, Function.update_self]
        exact member
      · rw [Function.update_of_ne same] at busy ⊢
        exact inv.own other busy
  | idle empty effect =>
      exact inv.effect effect holds (fun queue _ member => ⟨queue, member⟩)
        inv.outside inv.own (fun queue _ member _ => ⟨queue, member⟩)
        fun _ _ gone => dead_of_update_ready gone

/-! ## A timer interrupt -/

/-- A timer interrupt on the processor wakes a thread: the first sleeper is
due, or the current thread has gone to sleep and is due already. -/
def Wakes (cpu : Nat) (s : Scheduler) : Prop :=
  s.Due cpu ∨
    (s.cur cpu ≠ 0 ∧ s.status (s.cur cpu) = .sleep ∧
      s.wakeupTime (s.cur cpu) ≤ s.ticks cpu)

instance (cpu : Nat) (s : Scheduler) : Decidable (s.Wakes cpu) :=
  inferInstanceAs (Decidable (_ ∨ _))

/-- What `schedule` can do. -/
inductive Scheduled (cpu : Nat) (s after : Scheduler)
    (lists final : Queue → List Nat) : Prop
  | kept
      (running : s.cur cpu ≠ 0)
      (awake : s.status (s.cur cpu) ≠ .sleep)
      (unchanged : final = lists)
      (effect : Relinked s after)
  | resumed
      (stopped : s.cur cpu = 0)
      (picked : Picked cpu s after lists final)
  | switched
      (middle : Scheduler) (between : Queue → List Nat)
      (running : s.cur cpu ≠ 0)
      (inv : middle.Inv between)
      (away : Away cpu s middle lists between)
      (picked : Picked cpu middle after between final)

theorem Away.of_relinked
    {middle : Scheduler}
    (relinked : Relinked s middle)
    (away : Away cpu middle after lists final) :
    Away cpu s after lists final := by
  cases away with
  | ready alive awake effect =>
      rw [relinked.status, relinked.cur] at alive awake effect
      exact .ready alive awake (relinked.trans effect)
  | dead gone effect =>
      rw [relinked.status, relinked.cur] at effect
      rw [relinked.status, relinked.cur] at gone
      rw [relinked.cur]
      exact .dead gone (relinked.trans effect)
  | sleep nodes others asleep effect parts before behind =>
      rw [relinked.status, relinked.cur] at effect asleep
      rw [relinked.wakeupTime, relinked.cur] at before behind
      rw [relinked.cur]
      exact .sleep nodes others asleep (relinked.trans effect) parts before
        behind

theorem Away.numCpus (away : Away cpu s after lists final) :
    after.numCpus = s.numCpus := by
  cases away with
  | ready alive awake effect => exact effect.numCpus
  | dead gone effect => exact effect.numCpus
  | sleep nodes others asleep effect parts before behind =>
      exact effect.numCpus

theorem Inv.of_relinked
    (inv : s.Inv lists)
    (relinked : Relinked s after)
    (holds : after.Lists lists) :
    after.Inv lists :=
  inv.effect relinked holds (fun queue _ member => ⟨queue, member⟩)
    inv.outside inv.own (fun queue _ member _ => ⟨queue, member⟩)
    fun _ _ => id

/-- Counting the ticks of the current thread. -/
theorem keepsRunning_spec
    (cpu : Nat)
    (holds : s.Lists lists) :
    Relinked s (s.keepsRunning cpu).2 ∧ (s.keepsRunning cpu).2.Lists lists ∧
      (s.keepsRunning cpu).2.load = s.load ∧
      ((s.keepsRunning cpu).1 = true → s.status (s.cur cpu) ≠ .sleep) := by
  have counted : (s.countTick (s.cpus cpu).cur).Lists lists :=
    holds.onThread fun _ => rfl
  unfold keepsRunning
  dsimp only
  split
  · exact ⟨Effect.countTick, counted, rfl,
      fun kept => (of_decide_eq_true kept).2.2⟩
  · exact ⟨Effect.refl s, holds, rfl, fun kept => absurd kept Bool.false_ne_true⟩

/-- After the current thread is put away, a sleeper is due only if the
interrupt wakes a thread. -/
theorem Away.wakes
    {middle : Scheduler} {between : Queue → List Nat}
    (away : Away cpu s middle lists between)
    (inv : s.Inv lists)
    (running : s.cur cpu ≠ 0)
    (holds : middle.Lists between)
    (due : middle.Due cpu) :
    s.Wakes cpu := by
  have spelled := inv.holds.spells (.wakeups cpu)
  obtain ⟨rest, parts⟩ := (holds.spells (.wakeups cpu)).exists_cons due.1
  set first := (middle.cpus cpu).wakeups with first_eq
  have time : middle.wakeupTime first ≤ middle.ticks cpu := due.2
  -- the old list of sleepers, when it starts with the same thread
  have same : ∀ others, lists (.wakeups cpu) = first :: others →
      s.wakeupTime first ≤ s.ticks cpu → s.Due cpu := by
    intro others old onTime
    rw [old] at spelled
    obtain ⟨head_eq, notNull, -⟩ := spelled
    have head_eq : (s.cpus cpu).wakeups = first := head_eq
    unfold Due
    rw [head_eq]
    exact ⟨notNull, onTime⟩
  change between (.wakeups cpu) = first :: rest at parts
  cases away with
  | ready alive awake effect =>
      rw [effect.wakeupTime, effect.ticks] at time
      exact Or.inl (same rest parts time)
  | dead gone effect =>
      rw [effect.wakeupTime, effect.ticks] at time
      rw [Function.update_of_ne (by simp)] at parts
      exact Or.inl (same rest parts time)
  | sleep nodes others asleep effect split before behind =>
      rw [effect.wakeupTime, effect.ticks] at time
      rw [Function.update_self] at parts
      cases nodes with
      | nil =>
          obtain ⟨head_eq, -⟩ := List.cons.inj parts
          rw [← head_eq] at time
          exact Or.inr ⟨running, asleep, time⟩
      | cons node nodes =>
          obtain ⟨rfl, -⟩ := List.cons.inj parts
          exact Or.inl (same (nodes ++ others) split time)

/-- `schedule` returns and keeps the invariant, when a thread that it wakes is
added to the list of the processor it runs on. -/
theorem Inv.schedule
    (curStatus : Nat) (frame : CpuStatus)
    (inv : s.Inv lists)
    (here : s.Wakes cpu → leastLoaded s.cpus s.numCpus = cpu) :
    ∃ result final, s.schedule cpu curStatus frame = some result ∧
      result.2.Inv final ∧ Scheduled cpu s result.2 lists final := by
  have current : (s.cpus cpu).cur = s.cur cpu := rfl
  unfold Scheduler.schedule
  by_cases empty : (s.cpus cpu).threads = 0 ∧ (s.cpus cpu).wakeups = 0
  · have noThreads : lists (.threads cpu) = [] :=
      (inv.holds.spells (.threads cpu)).eq_nil_iff.mpr empty.1
    have stopped : s.cur cpu = 0 := by
      by_contra running
      have member := inv.own cpu running
      rw [noThreads] at member
      simp at member
    have picked : Picked cpu s (s.readyThread cpu s.idle false).2 lists lists :=
      .idle noThreads (Effect.readyIdle cpu)
    rw [if_pos empty]
    exact ⟨_, lists, rfl,
      picked.inv inv (inv.holds.readyThread cpu s.idle false),
      .resumed stopped picked⟩
  rw [if_neg empty, current]
  by_cases stopped : s.cur cpu = 0
  · obtain ⟨final, holds, picked⟩ := inv.pick fun due => here (Or.inl due)
    rw [if_pos stopped]
    exact ⟨_, final, rfl, picked.inv inv holds, .resumed stopped picked⟩
  rw [if_neg stopped]
  obtain ⟨relinked, counted, load, goesOn⟩ := keepsRunning_spec cpu inv.holds
  have kept := inv.of_relinked relinked counted
  cases again : (s.keepsRunning cpu).1 with
  | true =>
      refine ⟨(curStatus, (s.keepsRunning cpu).2), lists, ?_, kept,
        .kept stopped (goesOn again) rfl relinked⟩
      simp only [again, if_true]
  | false =>
      have busy : (s.keepsRunning cpu).2.cur cpu ≠ 0 := by
        rwa [relinked.cur]
      obtain ⟨middle, between, switched, holds, away, sameLoad⟩ :=
        kept.switchAway frame busy
      have middleInv := away.inv kept busy holds
      have fromStart := away.of_relinked relinked
      have numCpus_eq : middle.numCpus = s.numCpus := fromStart.numCpus
      have wakesHere : middle.Due cpu →
          leastLoaded middle.cpus middle.numCpus = cpu := by
        intro due
        rw [leastLoaded_congr (sameLoad.trans load), numCpus_eq]
        exact here (fromStart.wakes inv stopped holds due)
      obtain ⟨final, picks, picked⟩ := middleInv.pick wakesHere
      refine ⟨middle.pick cpu, final, ?_, picked.inv middleInv picks,
        .switched middle between stopped middleInv fromStart picked⟩
      simp only [again, Bool.false_eq_true, if_false, switched, Option.map_some]

/-! ## Every step -/

theorem status_setTicks (cpu ticks : Nat) :
    (s.setTicks cpu ticks).status = s.status := rfl

theorem cur_setTicks (cpu ticks : Nat) :
    (s.setTicks cpu ticks).cur = s.cur := by
  funext other
  by_cases same : other = cpu
  · subst same
    simp [setTicks, cur, cpus_onCpu]
  · simp [setTicks, cur, cpus_onCpu, same]

theorem load_setTicks (cpu ticks : Nat) :
    (s.setTicks cpu ticks).load = s.load :=
  load_onCpu_of_keeps fun _ => rfl

theorem Inv.setTicks (cpu ticks : Nat) (inv : s.Inv lists) :
    (s.setTicks cpu ticks).Inv lists where
  holds := inv.holds.onCpu fun _ => ⟨rfl, rfl⟩
  numCpus_pos := inv.numCpus_pos
  known := inv.known
  outside := inv.outside
  own := by
    rw [cur_setTicks]
    exact inv.own
  live := inv.live
  exited := inv.exited
  dead := inv.dead
  idle := inv.idle

/-- The record of the sleepers is not part of the lists. -/
theorem Inv.record
    (asleep : List Nat)
    (inv : s.Inv lists) :
    { s with asleep := asleep }.Inv lists where
  holds := inv.holds
  numCpus_pos := inv.numCpus_pos
  known := inv.known
  outside := inv.outside
  own := inv.own
  live := inv.live
  exited := inv.exited
  dead := inv.dead
  idle := inv.idle

/-- If the timer interrupts a processor, a thread that it wakes goes to the list
of that processor. -/
def WakesHere (s : Scheduler) : Call → Prop
  | .timer cpu ticks _ _ => (s.setTicks cpu ticks).Wakes cpu →
      leastLoaded s.cpus s.numCpus = cpu
  | _ => True

instance (s : Scheduler) : (call : Call) → Decidable (s.WakesHere call)
  | .timer _ _ _ _ => inferInstanceAs (Decidable (_ → _))
  | .sleep _ _ => isTrue trivial
  | .dead _ => isTrue trivial
  | .add _ => isTrue trivial

/-- A timer interrupt returns. -/
theorem Inv.timer
    {ticks curStatus : Nat} {frame : CpuStatus}
    (inv : s.Inv lists)
    (exists_cpu : cpu < s.numCpus)
    (here : s.WakesHere (.timer cpu ticks curStatus frame)) :
    ∃ after final, s.step (.timer cpu ticks curStatus frame) =
        some { after with asleep := s.asleepAfter cpu after } ∧
      after.Inv final ∧
      Scheduled cpu (s.setTicks cpu ticks) after lists final := by
  have wakesHere : (s.setTicks cpu ticks).Wakes cpu →
      leastLoaded (s.setTicks cpu ticks).cpus
        (s.setTicks cpu ticks).numCpus = cpu := by
    rw [leastLoaded_congr (load_setTicks cpu ticks)]
    exact here
  obtain ⟨result, final, scheduled, kept, what⟩ :=
    (inv.setTicks cpu ticks).schedule curStatus frame wakesHere
  refine ⟨result.2, final, ?_, kept, what⟩
  rw [step, if_pos exists_cpu, scheduled]
  rfl

/-- What `thread_sleep_syscall` does to the lists. -/
theorem Inv.sleep
    (status : CpuStatus)
    (inv : s.Inv lists) :
    (s.threadSleepSyscall cpu status).Inv lists where
  holds := inv.holds.onThread fun _ => rfl
  numCpus_pos := inv.numCpus_pos
  known := inv.known
  outside := inv.outside
  own := inv.own
  live := inv.live
  exited := inv.exited
  dead := by
    intro thread added gone
    by_cases same : thread = s.cur cpu
    · rw [same] at gone
      simp [threadSleepSyscall, Scheduler.status, mem_onThread, cur] at gone
    · refine inv.dead thread added ?_
      have other : thread ≠ (s.cpus cpu).cur := same
      simpa [threadSleepSyscall, Scheduler.status, mem_onThread, other]
        using gone
  idle := inv.idle

/-- What `thread_dead_syscall` does to the lists. -/
theorem Inv.die
    (inv : s.Inv lists)
    (running : s.cur cpu ≠ 0) :
    (s.threadDeadSyscall cpu).Inv lists where
  holds := by
    have listed : (s.setStatus (s.cur cpu) .dead).Lists lists :=
      inv.holds.onThread fun _ => rfl
    exact listed
  numCpus_pos := inv.numCpus_pos
  known := inv.known
  outside := inv.outside
  own := inv.own
  live := fun thread added alive =>
    inv.live thread added fun before =>
      alive (List.mem_cons_of_mem _ before)
  exited := by
    intro thread member
    rcases List.mem_cons.mp member with rfl | before
    · exact inv.known _ _ (inv.own cpu running)
    · exact inv.exited thread before
  dead := by
    intro thread added gone
    by_cases same : thread = s.cur cpu
    · rw [same]
      exact List.mem_cons_self
    · refine List.mem_cons_of_mem _ (inv.dead thread added ?_)
      have effect : Effect s (s.setStatus (s.cur cpu) .dead) _ _ :=
        Effect.setStatus .dead
      have gone : (s.setStatus (s.cur cpu) .dead).status thread = .dead := gone
      rwa [effect.status, Function.update_of_ne same] at gone
  idle := inv.idle

/-- A new thread joins the threads of the least loaded processor. -/
theorem Inv.add
    (inv : s.Inv lists)
    (notNull : thread ≠ 0)
    (notIdle : thread ≠ s.idle)
    (new : thread ∉ s.added) :
    ((s.makeThread thread).schedulerAddThread thread).Inv
      (Function.update lists (.threads (leastLoaded s.cpus s.numCpus))
        (thread :: lists (.threads (leastLoaded s.cpus s.numCpus)))) := by
  have fresh : ∀ queue, thread ∉ lists queue := fun queue member =>
    new (inv.known queue thread member)
  have within := leastLoaded_lt s.cpus inv.numCpus_pos
  -- the new thread is on no list, so the lists do not feel its fields
  have made : (s.makeThread thread).Lists lists := by
    refine ⟨fun queue => ?_, inv.holds.separate⟩
    refine Segment.congr (inv.holds.spells queue) fun other member => ?_
    have different : other ≠ thread := by
      rintro rfl
      exact fresh queue member
    simp [makeThread, next, mem_onThread, different]
  have holds := made.schedulerAddThread notNull fresh
  have moved := moved_push (.threads (leastLoaded s.cpus s.numCpus)) fresh
  have effect : Relinked (s.makeThread thread)
      ((s.makeThread thread).schedulerAddThread thread) :=
    Effect.schedulerAddThread
  exact
    { holds := holds
      numCpus_pos := inv.numCpus_pos
      known := by
        intro queue other listed
        rw [effect.added]
        rcases (moved queue other).mp listed with ⟨rfl, -⟩ | ⟨-, before⟩
        · exact List.mem_cons_self
        · exact List.mem_cons_of_mem _ (inv.known queue other before)
      outside := by
        intro queue beyond
        refine List.eq_nil_iff_forall_not_mem.mpr fun other listed => ?_
        rcases (moved queue other).mp listed with ⟨-, rfl⟩ | ⟨-, before⟩
        · exact absurd within (Nat.not_lt_of_le beyond)
        · exact absurd (inv.cpu_lt before) (Nat.not_lt_of_le beyond)
      own := by
        intro other busy
        rw [effect.cur] at busy ⊢
        have listed : s.cur other ∈ lists (.threads other) := inv.own other busy
        refine (moved _ _).mpr (Or.inr ⟨fun same => ?_, listed⟩)
        have same : s.cur other = thread := same
        exact fresh _ (same ▸ listed)
      live := by
        intro other added alive
        rw [effect.added] at added
        rw [effect.exited] at alive
        rcases List.mem_cons.mp added with rfl | before
        · exact ⟨_, (moved _ _).mpr (Or.inl ⟨rfl, rfl⟩)⟩
        · obtain ⟨queue, listed⟩ := inv.live other before alive
          refine ⟨queue, (moved _ _).mpr (Or.inr ⟨?_, listed⟩)⟩
          rintro rfl
          exact fresh _ listed
      exited := by
        intro other gone
        rw [effect.exited] at gone
        rw [effect.added]
        exact List.mem_cons_of_mem _ (inv.exited other gone)
      dead := by
        intro other added gone
        rw [effect.added] at added
        rw [effect.status] at gone
        rw [effect.exited]
        rcases List.mem_cons.mp added with rfl | before
        · simp [makeThread, Scheduler.status, mem_onThread] at gone
        · have different : other ≠ thread := by
            rintro rfl
            exact new before
          refine inv.dead other before ?_
          simpa [makeThread, Scheduler.status, mem_onThread, different] using gone
      idle := by
        rw [effect.idle, effect.added]
        intro listed
        rcases List.mem_cons.mp listed with same | before
        · exact notIdle same.symm
        · exact inv.idle before }

/-- What a step does to the scheduler and to its lists. -/
inductive Stepped (s : Scheduler) (lists : Queue → List Nat) :
    Call → Scheduler → (Queue → List Nat) → Prop
  /-- The interrupt is handled, and the sleepers are recorded. -/
  | timer {cpu : Nat} (ticks curStatus : Nat) (frame : CpuStatus)
      {result : Scheduler} {final : Queue → List Nat}
      (scheduled : Scheduled cpu (s.setTicks cpu ticks) result lists final) :
      Stepped s lists (.timer cpu ticks curStatus frame)
        { result with asleep := s.asleepAfter cpu result } final
  /-- The current thread asks to sleep and stays where it is. -/
  | sleep {cpu : Nat} (status : CpuStatus) (running : s.cur cpu ≠ 0) :
      Stepped s lists (.sleep cpu status)
        (s.threadSleepSyscall cpu status) lists
  /-- The current thread exits and stays where it is. -/
  | dead {cpu : Nat} (running : s.cur cpu ≠ 0) :
      Stepped s lists (.dead cpu) (s.threadDeadSyscall cpu) lists
  /-- A new thread goes to the least loaded processor. -/
  | add {thread : Nat} (new : thread ∉ s.added) :
      Stepped s lists (.add thread)
        ((s.makeThread thread).schedulerAddThread thread)
        (Function.update lists (.threads (leastLoaded s.cpus s.numCpus))
          (thread :: lists (.threads (leastLoaded s.cpus s.numCpus))))

/-- Every step keeps the invariant, when threads are woken where they run, and
it does one of four things. -/
theorem Inv.step
    {call : Call}
    (inv : s.Inv lists)
    (here : s.WakesHere call)
    (stepped : s.step call = some after) :
    ∃ final, after.Inv final ∧ Stepped s lists call after final := by
  cases call with
  | timer cpu ticks curStatus frame =>
      have exists_cpu : cpu < s.numCpus := by
        by_contra beyond
        simp [Scheduler.step, beyond] at stepped
      obtain ⟨result, final, returned, kept, scheduled⟩ :=
        inv.timer exists_cpu here
      rw [returned] at stepped
      obtain rfl := Option.some.inj stepped
      exact ⟨final, kept.record _, .timer ticks curStatus frame scheduled⟩
  | sleep cpu status =>
      simp only [Scheduler.step, Option.ite_none_right_eq_some,
        Option.some.injEq] at stepped
      obtain ⟨running, rfl⟩ := stepped
      exact ⟨lists, inv.sleep status, .sleep status running.2⟩
  | dead cpu =>
      simp only [Scheduler.step, Option.ite_none_right_eq_some,
        Option.some.injEq] at stepped
      obtain ⟨running, rfl⟩ := stepped
      exact ⟨lists, inv.die running.2, .dead running.2⟩
  | add thread =>
      simp only [Scheduler.step, Option.ite_none_right_eq_some,
        Option.some.injEq] at stepped
      obtain ⟨⟨notNull, notIdle, new⟩, rfl⟩ := stepped
      exact ⟨_, inv.add notNull notIdle new, .add new⟩

/-- The empty scheduler. -/
theorem Empty.inv (empty : s.Empty) : s.Inv fun _ => [] := by
  obtain ⟨added, exited, -⟩ := empty.records
  refine ⟨⟨fun queue => ?_, fun _ _ _ member => ?_⟩, empty.numCpus_pos, ?_,
    fun _ _ => rfl, fun cpu busy => ?_, ?_, ?_, ?_, ?_⟩
  · cases queue with
    | threads cpu => exact (empty.unused cpu).1
    | wakeups cpu => exact (empty.unused cpu).2.1
  · simp at member
  · simp
  · exact absurd (empty.unused cpu).2.2.1 busy
  · simp [added]
  · simp [exited]
  · simp [added]
  · simp [added]

end Scheduler
end PivotOs
