import PivotOs.Scheduler.Lists

/-!
# What a step of the scheduler does

A timer interrupt first puts the current thread away and then picks the next
one.  Each half is described once by what it does to the lists, the status of
the threads and the current threads.  The description of the second half is
for the case that a thread is woken on the processor to whose list it is
added.
-/

namespace PivotOs

open LinkedList

namespace Scheduler

/-- The lists are well formed, every thread that has not exited is on one of
them, and the current thread of a processor is on the list of the
processor. -/
structure Inv (s : Scheduler) (lists : Queue → List Nat) : Prop where
  /-- The lists are these. -/
  holds : s.Lists lists
  /-- There is a processor. -/
  numCpus_pos : 0 < s.numCpus
  /-- Only threads that were added are listed. -/
  known : ∀ queue, ∀ thread ∈ lists queue, thread ∈ s.added
  /-- Only the lists of processors are used. -/
  outside : ∀ queue, s.numCpus ≤ queue.cpu → lists queue = []
  /-- What runs is on the list of its processor. -/
  own : ∀ cpu, s.cur cpu ≠ 0 → s.cur cpu ∈ lists (.threads cpu)
  /-- What has not exited is listed. -/
  live : ∀ thread ∈ s.added, thread ∉ s.exited →
    ∃ queue, thread ∈ lists queue
  /-- What has exited was added. -/
  exited : ∀ thread ∈ s.exited, thread ∈ s.added
  /-- What is dead has exited. -/
  dead : ∀ thread ∈ s.added, s.status thread = .dead → thread ∈ s.exited
  /-- The idle thread is not added. -/
  idle : s.idle ∉ s.added

variable {s after : Scheduler} {lists final : Queue → List Nat}
  {cpu thread : Nat}

/-- What `switchAway` can do: the current thread becomes ready, or it leaves
the list of its processor, and it is put among the sleepers when it sleeps. -/
inductive Away (cpu : Nat) (s after : Scheduler) (lists : Queue → List Nat) :
    (Queue → List Nat) → Prop
  | ready
      (alive : s.status (s.cur cpu) ≠ .dead)
      (awake : s.status (s.cur cpu) ≠ .sleep)
      (effect : Effect s after
        (Function.update s.status (s.cur cpu) .ready) s.cur) :
      Away cpu s after lists lists
  | dead
      (gone : s.status (s.cur cpu) = .dead)
      (effect : Effect s after s.status (Function.update s.cur cpu 0)) :
      Away cpu s after lists (Function.update lists (.threads cpu)
        ((lists (.threads cpu)).erase (s.cur cpu)))
  | sleep
      (nodes others : List Nat)
      (asleep : s.status (s.cur cpu) = .sleep)
      (effect : Effect s after s.status (Function.update s.cur cpu 0))
      (parts : lists (.wakeups cpu) = nodes ++ others)
      (before : ∀ node ∈ nodes,
        s.wakeupTime node < s.wakeupTime (s.cur cpu))
      (behind : ∀ node ∈ others.head?,
        s.wakeupTime (s.cur cpu) ≤ s.wakeupTime node) :
      Away cpu s after lists (Function.update
        (Function.update lists (.threads cpu)
          ((lists (.threads cpu)).erase (s.cur cpu)))
        (.wakeups cpu) (nodes ++ s.cur cpu :: others))

/-- What `pick` can do: the first sleeper runs, the next thread runs, or the
idle thread does. -/
inductive Picked (cpu : Nat) (s after : Scheduler)
    (lists : Queue → List Nat) : (Queue → List Nat) → Prop
  | wake
      (thread : Nat) (others : List Nat)
      (parts : lists (.wakeups cpu) = thread :: others)
      (due : s.wakeupTime thread ≤ s.ticks cpu)
      (effect : Effect s after (Function.update s.status thread .ready)
        (Function.update s.cur cpu thread)) :
      Picked cpu s after lists (Function.update
        (Function.update lists (.wakeups cpu) others)
        (.threads cpu) (thread :: lists (.threads cpu)))
  | next
      (thread : Nat)
      (member : thread ∈ lists (.threads cpu))
      (effect : Effect s after (Function.update s.status thread .ready)
        (Function.update s.cur cpu thread)) :
      Picked cpu s after lists lists
  | idle
      (empty : lists (.threads cpu) = [])
      (effect : Effect s after (Function.update s.status s.idle .ready)
        s.cur) :
      Picked cpu s after lists lists

/-! ## The current thread is put away -/

/-- Registers and counters are not part of the lists. -/
theorem Lists.onThread
    {change : ThreadT → ThreadT}
    (keeps : ∀ record, (change record).next = record.next)
    (holds : s.Lists lists) :
    (s.onThread thread change).Lists lists := by
  rw [Lists, next_onThread_of_keeps keeps, head_onThread]
  exact holds

theorem Lists.onCpu
    {change : CpuData → CpuData}
    (keeps : ∀ data, (change data).threads = data.threads ∧
      (change data).wakeups = data.wakeups)
    (holds : s.Lists lists) :
    (s.onCpu cpu change).Lists lists := by
  rw [Lists, next_onCpu, head_onCpu_of_keeps keeps]
  exact holds

/-- Once a thread is off the list of its processor it is on no list. -/
theorem Lists.erase_fresh
    (holds : s.Lists lists)
    (member : thread ∈ lists (.threads cpu))
    (queue : Queue) :
    thread ∉ Function.update lists (.threads cpu)
      ((lists (.threads cpu)).erase thread) queue := by
  by_cases same : queue = .threads cpu
  · rw [same, Function.update_self]
    exact (holds.spells (.threads cpu)).nodup.not_mem_erase
  · rw [Function.update_of_ne same]
    exact fun listed => same (holds.separate _ _ thread listed member)

/-- What is listed after a thread is taken off the list of its processor. -/
theorem Lists.mem_erase_iff
    {queue : Queue} {other : Nat}
    (holds : s.Lists lists)
    (member : thread ∈ lists (.threads cpu)) :
    other ∈ Function.update lists (.threads cpu)
        ((lists (.threads cpu)).erase thread) queue ↔
      other ≠ thread ∧ other ∈ lists queue := by
  by_cases same : queue = .threads cpu
  · rw [same, Function.update_self]
    exact (holds.spells (.threads cpu)).nodup.mem_erase_iff
  · rw [Function.update_of_ne same]
    refine ⟨fun listed => ⟨?_, listed⟩, And.right⟩
    rintro rfl
    exact same (holds.separate _ _ other listed member)

/-- A thread has been moved to a place, and the others are where they
were. -/
def Moved (thread : Nat) (place : Queue) (lists final : Queue → List Nat) :
    Prop :=
  ∀ queue other, other ∈ final queue ↔
    (other = thread ∧ queue = place) ∨ (other ≠ thread ∧ other ∈ lists queue)

/-- From nowhere to the front of a list. -/
theorem moved_push
    (place : Queue)
    (fresh : ∀ queue, thread ∉ lists queue) :
    Moved thread place lists
      (Function.update lists place (thread :: lists place)) := by
  intro queue other
  by_cases same : queue = place
  · subst same
    rw [Function.update_self, List.mem_cons]
    by_cases moved : other = thread
    · simp [moved]
    · simp [moved]
  · rw [Function.update_of_ne same]
    by_cases moved : other = thread
    · simp [moved, same, fresh queue]
    · simp [moved]

/-- From the threads of a processor to its sleepers. -/
theorem Lists.moved_to_wakeups
    {nodes others : List Nat}
    (holds : s.Lists lists)
    (member : thread ∈ lists (.threads cpu))
    (parts : lists (.wakeups cpu) = nodes ++ others) :
    Moved thread (.wakeups cpu) lists (Function.update
      (Function.update lists (.threads cpu)
        ((lists (.threads cpu)).erase thread))
      (.wakeups cpu) (nodes ++ thread :: others)) := by
  intro queue other
  have fresh := holds.erase_fresh member (.wakeups cpu)
  rw [Function.update_of_ne (by simp), parts] at fresh
  by_cases same : queue = .wakeups cpu
  · subst same
    rw [Function.update_self, parts]
    by_cases moved : other = thread
    · simp [moved]
    · simp [moved]
  · rw [Function.update_of_ne same, holds.mem_erase_iff member]
    simp [same]

/-- From the sleepers of a processor to its threads. -/
theorem Lists.moved_to_threads
    {others : List Nat}
    (holds : s.Lists lists)
    (parts : lists (.wakeups cpu) = thread :: others) :
    Moved thread (.threads cpu) lists (Function.update
      (Function.update lists (.wakeups cpu) others)
      (.threads cpu) (thread :: lists (.threads cpu))) := by
  intro queue other
  have member : thread ∈ lists (.wakeups cpu) := parts ▸ List.mem_cons_self
  have distinct := (holds.spells (.wakeups cpu)).nodup
  rw [parts, List.nodup_cons] at distinct
  have elsewhere : ∀ place, place ≠ .wakeups cpu → thread ∉ lists place :=
    fun place different listed =>
      different (holds.separate _ _ thread listed member)
  by_cases same : queue = .threads cpu
  · subst same
    rw [Function.update_self, List.mem_cons]
    by_cases moved : other = thread
    · simp [moved]
    · simp [moved]
  rw [Function.update_of_ne same]
  by_cases asleep : queue = .wakeups cpu
  · subst asleep
    rw [Function.update_self, parts, List.mem_cons]
    by_cases moved : other = thread
    · simp [moved, distinct.1]
    · simp [moved]
  · rw [Function.update_of_ne asleep]
    by_cases moved : other = thread
    · simp [moved, same, elsewhere queue asleep]
    · simp [moved]

theorem status_saveFrame (frame : CpuStatus) (other : Nat) :
    ((s.saveFrame thread frame).mem other).status = s.status other :=
  congrFun (Effect.saveFrame frame).status other

theorem switchAway_of_ready
    (frame : CpuStatus)
    (alive : s.status (s.cur cpu) ≠ .dead)
    (awake : s.status (s.cur cpu) ≠ .sleep) :
    s.switchAway cpu frame =
      some ((s.setStatus (s.cur cpu) .ready).saveFrame (s.cur cpu) frame) := by
  have isReady : (s.setStatus (s.cur cpu) .ready).status (s.cur cpu) =
      .ready := by
    rw [(Effect.setStatus .ready).status, Function.update_self]
  unfold switchAway
  rw [show (s.cpus cpu).cur = s.cur cpu from rfl]
  simp only [show (s.mem (s.cur cpu)).status = s.status (s.cur cpu) from rfl,
    ne_eq, alive, awake, not_false_eq_true, and_self, if_true,
    status_saveFrame, isReady, reduceCtorEq, if_false]

theorem switchAway_of_dead
    (frame : CpuStatus)
    (gone : s.status (s.cur cpu) = .dead) :
    s.switchAway cpu frame =
      ((s.saveFrame (s.cur cpu) frame).removeFrom cpu (s.cur cpu)).map
        fun s => s.setCur cpu 0 := by
  unfold switchAway
  rw [show (s.cpus cpu).cur = s.cur cpu from rfl]
  simp only [show (s.mem (s.cur cpu)).status = s.status (s.cur cpu) from rfl,
    gone, ne_eq, not_true_eq_false, false_and, if_false, status_saveFrame,
    if_true]

theorem switchAway_of_sleep
    (frame : CpuStatus)
    (asleep : s.status (s.cur cpu) = .sleep) :
    s.switchAway cpu frame =
      (((s.saveFrame (s.cur cpu) frame).setCur cpu 0).removeFrom cpu
        (s.cur cpu)).bind fun after => after.insertWakeup cpu (s.cur cpu) := by
  unfold switchAway
  rw [show (s.cpus cpu).cur = s.cur cpu from rfl]
  simp only [show (s.mem (s.cur cpu)).status = s.status (s.cur cpu) from rfl,
    asleep, ne_eq, not_true_eq_false, and_false, if_false, status_saveFrame,
    reduceCtorEq, if_true]

theorem Inv.switchAway
    (frame : CpuStatus)
    (inv : s.Inv lists)
    (running : s.cur cpu ≠ 0) :
    ∃ after final, s.switchAway cpu frame = some after ∧
      after.Lists final ∧ Away cpu s after lists final ∧
      after.load = s.load := by
  have member := inv.own cpu running
  have saved : (s.saveFrame (s.cur cpu) frame).Lists lists :=
    inv.holds.onThread fun _ => rfl
  have relinked : Relinked s (s.saveFrame (s.cur cpu) frame) :=
    Effect.saveFrame frame
  by_cases gone : s.status (s.cur cpu) = .dead
  · obtain ⟨after, removed, effect, listed, load⟩ :=
      saved.removeFrom (relinked.added ▸ inv.known) member
    have moved := relinked.relink effect
    have cleared := moved.trans (Effect.setCur cpu 0)
    rw [moved.status, moved.cur] at cleared
    refine ⟨after.setCur cpu 0, _, ?_, listed.onCpu fun _ => ⟨rfl, rfl⟩,
      .dead gone cleared, ?_⟩
    · rw [switchAway_of_dead frame gone, removed]
      rfl
    · rw [load_setCur, load]
      rfl
  by_cases asleep : s.status (s.cur cpu) = .sleep
  · have cleared := relinked.trans (Effect.setCur cpu 0)
    rw [relinked.status, relinked.cur] at cleared
    have listed : ((s.saveFrame (s.cur cpu) frame).setCur cpu 0).Lists lists :=
      saved.onCpu fun _ => ⟨rfl, rfl⟩
    obtain ⟨middle, removed, effect, off, load⟩ :=
      listed.removeFrom (cleared.added ▸ inv.known) member
    have moved := cleared.relink effect
    obtain ⟨after, nodes, others, inserted, effect, parts, before, behind,
        final, sameLoad⟩ :=
      off.insertWakeup cpu
        (fun queue thread listed =>
          moved.added ▸ inv.known queue thread
            ((inv.holds.mem_erase_iff member).mp listed).2)
        running (inv.holds.erase_fresh member)
    rw [Function.update_of_ne (by simp)] at parts
    refine ⟨after, _, ?_, final, .sleep nodes others asleep
      (moved.relink effect) parts ?_ ?_, ?_⟩
    · rw [switchAway_of_sleep frame asleep, removed]
      exact inserted
    · intro node inside
      have earlier := before node inside
      rw [← moved.wakeupTime]
      exact earlier
    · intro node inside
      rw [← moved.wakeupTime]
      exact behind node inside
    · rw [sameLoad, load, load_setCur]
      rfl
  · refine ⟨_, lists, switchAway_of_ready frame gone asleep, ?_,
      .ready gone asleep ((Effect.setStatus .ready).relink
        (Effect.saveFrame frame)), rfl⟩
    have listed : (s.setStatus (s.cur cpu) .ready).Lists lists :=
      inv.holds.onThread fun _ => rfl
    exact listed.onThread fun _ => rfl

/-! ## The next thread is picked -/

theorem Effect.readyThread (cpu thread : Nat) :
    Effect s (s.readyThread cpu thread true).2
      (Function.update s.status thread .ready)
      (Function.update s.cur cpu thread) := by
  have current : Effect s (s.setCur cpu thread) _ _ := Effect.setCur cpu thread
  have ready := current.trans (Effect.markReady thread)
  rw [current.status, current.cur] at ready
  exact ready.relink (Effect.loadCr3 _)

theorem Effect.readyIdle (cpu : Nat) :
    Effect s (s.readyThread cpu s.idle false).2
      (Function.update s.status s.idle .ready) s.cur :=
  (Effect.markReady s.idle).relink (Effect.loadCr3 _)

theorem Lists.loadCr3
    (root : Word)
    (holds : s.Lists lists) :
    (s.loadCr3 cpu root).Lists lists :=
  holds.onCpu fun _ => ⟨rfl, rfl⟩

theorem Lists.readyThread
    (cpu thread : Nat) (safety : Bool)
    (holds : s.Lists lists) :
    (s.readyThread cpu thread safety).2.Lists lists := by
  have current : (if safety then s.setCur cpu thread else s).Lists lists := by
    split
    · exact holds.onCpu fun _ => ⟨rfl, rfl⟩
    · exact holds
  have ready : ((if safety then s.setCur cpu thread else s).markReady
      thread).Lists lists := current.onThread fun _ => rfl
  exact ready.loadCr3 _

/-- The next thread is one of the processor's threads, as long as there are
any. -/
theorem Inv.schedulerNextThread
    (cpu : Nat)
    (inv : s.Inv lists) :
    (s.schedulerNextThread cpu (s.cur cpu) = 0 → lists (.threads cpu) = []) ∧
      (s.schedulerNextThread cpu (s.cur cpu) ≠ 0 →
        s.schedulerNextThread cpu (s.cur cpu) ∈ lists (.threads cpu)) := by
  have spelled := inv.holds.spells (.threads cpu)
  have own := inv.own cpu
  unfold Scheduler.schedulerNextThread
  by_cases empty : (s.cpus cpu).threads = 0
  · rw [if_pos empty]
    exact ⟨fun _ => spelled.eq_nil_iff.mpr empty, fun absurd => (absurd rfl).elim⟩
  · obtain ⟨rest, parts⟩ := spelled.exists_cons empty
    have first : (s.cpus cpu).threads ∈ lists (.threads cpu) :=
      parts ▸ List.mem_cons_self
    rw [if_neg empty]
    split
    · exact ⟨fun null => (empty null).elim, fun _ => first⟩
    · next running =>
        split
        · exact ⟨fun null => (empty null).elim, fun _ => first⟩
        · next more =>
            exact ⟨fun null => (more null).elim,
              fun _ => spelled.next_mem (own running) more⟩

/-- `pick`, when a thread that is woken is added to the list of this
processor. -/
theorem Inv.pick
    (inv : s.Inv lists)
    (here : s.Due cpu → leastLoaded s.cpus s.numCpus = cpu) :
    ∃ final, (s.pick cpu).2.Lists final ∧
      Picked cpu s (s.pick cpu).2 lists final := by
  unfold Scheduler.pick
  by_cases due : s.Due cpu
  · obtain ⟨others, parts⟩ :=
      (inv.holds.spells (.wakeups cpu)).exists_cons due.1
    have woken := inv.holds.wake parts
    rw [here due] at woken
    rw [if_pos due]
    refine ⟨_, woken.readyThread cpu _ true,
      .wake (s.cpus cpu).wakeups others parts due.2 ?_⟩
    have moved : Relinked s
        ((s.schedulerAddThread (s.cpus cpu).wakeups).setWakeups cpu
          (s.next (s.cpus cpu).wakeups)) :=
      Effect.schedulerAddThread.relink (Effect.setWakeups _)
    have ready := moved.trans (Effect.readyThread cpu (s.cpus cpu).wakeups)
    rw [moved.status, moved.cur] at ready
    exact ready
  · rw [if_neg due, show (s.cpus cpu).cur = s.cur cpu from rfl]
    obtain ⟨none, some⟩ := inv.schedulerNextThread cpu
    by_cases null : s.schedulerNextThread cpu (s.cur cpu) = 0
    · simp only [null, ne_eq, not_true_eq_false, if_false]
      exact ⟨lists, inv.holds.readyThread cpu s.idle false,
        .idle (none null) (Effect.readyIdle cpu)⟩
    · simp only [ne_eq, null, not_false_eq_true, if_true]
      exact ⟨lists, inv.holds.readyThread cpu _ true,
        .next _ (some null) (Effect.readyThread cpu _)⟩

end Scheduler
end PivotOs
