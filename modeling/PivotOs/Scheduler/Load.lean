import PivotOs.Scheduler.Sleepers

/-!
# The load of the processors

`num_threads` of a processor goes up whenever a thread is added to its list,
but `scheduler_remove_thread` is given the head of a list only and never
lowers it.  So the counter is the length of the list together with the number
of threads that were ever removed from it.
-/

namespace PivotOs

open LinkedList

namespace Scheduler

variable {s after last : Scheduler} {lists : Queue → List Nat}
  {cpu thread : Nat}

/-- The threads on a list. -/
def listOf (s : Scheduler) (queue : Queue) : List Nat :=
  collect s.next 0 s.rounds (s.head queue)

/-- The two functions on the lists of threads. -/
inductive ListCall
  | add (thread : Nat)
  | remove (cpu thread : Nat)
  deriving DecidableEq

/-- One call. -/
def listStep (s : Scheduler) : ListCall → Option Scheduler
  | .add thread =>
      some ({ s with added := thread :: s.added }.schedulerAddThread thread)
  | .remove cpu thread => s.removeFrom cpu thread

/-- A thread is added when it is on no list, and removed from the list that
holds it. -/
def Listed (s : Scheduler) : ListCall → Prop
  | .add thread => thread ≠ 0 ∧ ∀ cpu < s.numCpus,
      thread ∉ s.listOf (.threads cpu) ∧ thread ∉ s.listOf (.wakeups cpu)
  | .remove cpu thread => cpu < s.numCpus ∧ thread ∈ s.listOf (.threads cpu)

instance (s : Scheduler) : (call : ListCall) → Decidable (s.Listed call)
  | .add _ => inferInstanceAs (Decidable (_ ∧ _))
  | .remove _ _ => inferInstanceAs (Decidable (_ ∧ _))

/-- A thread that is added goes to the front of the list of a processor whose
list is a shortest one, and no other list changes. -/
def Balances (s : Scheduler) (thread : Nat) : Prop :=
  ∃ cpu < s.numCpus,
    (∀ other < s.numCpus,
      (s.listOf (.threads cpu)).length ≤ (s.listOf (.threads other)).length) ∧
    Spells (s.schedulerAddThread thread).next 0
      ((s.schedulerAddThread thread).head (.threads cpu))
      (thread :: s.listOf (.threads cpu)) ∧
    ∀ queue, queue ≠ .threads cpu →
      Spells (s.schedulerAddThread thread).next 0
        ((s.schedulerAddThread thread).head queue) (s.listOf queue)

/-- The counters are the lengths of the lists, and threads are added where
the list is shortest. -/
structure Balanced (s : Scheduler) : Prop where
  /-- The counter of a processor is the length of its list. -/
  counts : ∀ cpu < s.numCpus, s.load cpu = (s.listOf (.threads cpu)).length
  /-- A thread that is on no list goes to a shortest list. -/
  balances : ∀ thread, s.Listed (.add thread) → s.Balances thread

/-- The lists are well formed, and a counter exceeds the length of its list
by a number. -/
structure Counted (s : Scheduler) (lists : Queue → List Nat)
    (excess : Nat → Nat) : Prop where
  holds : s.Lists lists
  numCpus_pos : 0 < s.numCpus
  known : ∀ queue, ∀ thread ∈ lists queue, thread ∈ s.added
  outside : ∀ queue, s.numCpus ≤ queue.cpu → lists queue = []
  counts : ∀ cpu, s.load cpu = (lists (.threads cpu)).length + excess cpu

variable {excess : Nat → Nat}

theorem Counted.listOf_eq
    (counted : s.Counted lists excess)
    (queue : Queue) :
    s.listOf queue = lists queue :=
  (counted.holds.spells queue).collect_eq
    (Nat.le_of_lt (counted.holds.length_lt_rounds queue counted.known))

theorem Counted.fresh
    (counted : s.Counted lists excess)
    (allowed : s.Listed (.add thread))
    (queue : Queue) :
    thread ∉ lists queue := by
  intro member
  have within : queue.cpu < s.numCpus := by
    by_contra beyond
    rw [counted.outside queue (Nat.le_of_not_lt beyond)] at member
    simp at member
  obtain ⟨threads, wakeups⟩ := allowed.2 queue.cpu within
  rw [counted.listOf_eq] at threads wakeups
  cases queue with
  | threads cpu => exact threads member
  | wakeups cpu => exact wakeups member

theorem load_schedulerAddThread (thread : Nat) :
    (s.schedulerAddThread thread).load =
      Function.update s.load (leastLoaded s.cpus s.numCpus)
        (s.load (leastLoaded s.cpus s.numCpus) + 1) := by
  rw [schedulerAddThread, load_setThreads, load_setNext, load_countThread]

/-- Adding a thread counts it. -/
theorem Counted.add
    (counted : s.Counted lists excess)
    (allowed : s.Listed (.add thread)) :
    ∃ final, ({ s with added := thread :: s.added }.schedulerAddThread
      thread).Counted final excess := by
  have fresh := counted.fresh allowed
  have within := leastLoaded_lt s.cpus counted.numCpus_pos
  set chosen := leastLoaded s.cpus s.numCpus with chosen_eq
  have moved := moved_push (.threads chosen) fresh
  have recorded : { s with added := thread :: s.added }.Lists lists :=
    counted.holds
  refine ⟨_, recorded.schedulerAddThread allowed.1 fresh,
    counted.numCpus_pos, ?_, ?_, ?_⟩
  · intro queue other listed
    rcases (moved queue other).mp listed with ⟨rfl, -⟩ | ⟨-, before⟩
    · exact List.mem_cons_self
    · exact List.mem_cons_of_mem _ (counted.known queue other before)
  · intro queue beyond
    have different : queue ≠ .threads chosen := by
      rintro rfl
      exact absurd within (Nat.not_lt_of_le beyond)
    exact (Function.update_of_ne different _ _).trans
      (counted.outside queue beyond)
  · intro cpu
    rw [load_schedulerAddThread]
    change Function.update s.load chosen (s.load chosen + 1) cpu =
      (Function.update lists (.threads chosen)
        (thread :: lists (.threads chosen)) (.threads cpu)).length + excess cpu
    by_cases same : cpu = chosen
    · rw [same, Function.update_self, Function.update_self, counted.counts,
        List.length_cons]
      omega
    · rw [Function.update_of_ne same,
        Function.update_of_ne (by simpa using same)]
      exact counted.counts cpu

/-- Removing a thread does not. -/
theorem Counted.remove
    (counted : s.Counted lists excess)
    (allowed : s.Listed (.remove cpu thread)) :
    ∃ after final, s.removeFrom cpu thread = some after ∧
      after.numCpus = s.numCpus ∧
      after.Counted final
        (Function.update excess cpu (excess cpu + 1)) := by
  obtain ⟨within, member⟩ := allowed
  rw [counted.listOf_eq] at member
  obtain ⟨after, removed, effect, holds, load⟩ :=
    counted.holds.removeFrom counted.known member
  refine ⟨after, _, removed, effect.numCpus, holds,
    effect.numCpus ▸ counted.numCpus_pos, ?_, ?_, ?_⟩
  · intro queue other listed
    rw [effect.added]
    exact counted.known queue other
      ((counted.holds.mem_erase_iff member).mp listed).2
  · intro queue beyond
    rw [effect.numCpus] at beyond
    rw [Function.update_of_ne]
    · exact counted.outside queue beyond
    · rintro rfl
      exact absurd within (Nat.not_lt_of_le beyond)
  · intro other
    rw [load, counted.counts other]
    by_cases same : other = cpu
    · have shorter := List.length_erase_add_one member
      rw [same, Function.update_self, Function.update_self]
      omega
    · rw [Function.update_of_ne (by simpa using same),
        Function.update_of_ne same]

/-! ## Runs -/

/-- The call removes a thread from the list of a processor. -/
def ListCall.removesFrom (cpu : Nat) : ListCall → Bool
  | .add _ => false
  | .remove other _ => other = cpu

theorem Empty.counted (empty : s.Empty) :
    s.Counted (fun _ => []) fun _ => 0 where
  holds := empty.inv.holds
  numCpus_pos := empty.numCpus_pos
  known := by simp
  outside := fun _ _ => rfl
  counts := fun cpu => (empty.unused cpu).2.2.2

/-- Every call returns, and a counter exceeds the length of its list by the
number of threads removed from it. -/
theorem Counted.run
    (calls : List ListCall)
    (counted : s.Counted lists excess)
    (allowed : Runs.Along listStep Listed s calls) :
    ∃ last final, Runs.run listStep s calls = some last ∧
      last.numCpus = s.numCpus ∧
      (last.Counted final fun cpu =>
        excess cpu + calls.countP (ListCall.removesFrom cpu)) ∧
      ∀ cpu thread, .remove cpu thread ∈ calls → cpu < s.numCpus := by
  induction calls generalizing s lists excess with
  | nil => exact ⟨s, lists, rfl, rfl, by simpa using counted, by simp⟩
  | cons call calls inductionHypothesis =>
      obtain ⟨here, later⟩ := allowed
      cases call with
      | add thread =>
          obtain ⟨middle, added⟩ := counted.add here
          obtain ⟨last, final, ran, numCpus_eq, kept, within⟩ :=
            inductionHypothesis added (later _ rfl)
          refine ⟨last, final, ran, numCpus_eq, ?_, ?_⟩
          · simpa [List.countP_cons, ListCall.removesFrom] using kept
          · intro cpu removed member
            exact within cpu removed (by simpa using member)
      | remove cpu thread =>
          obtain ⟨after, middle, removed, same, counts⟩ :=
            counted.remove here
          obtain ⟨last, final, ran, numCpus_eq, kept, within⟩ :=
            inductionHypothesis counts (later after removed)
          refine ⟨last, final, ?_, numCpus_eq.trans same, ?_, ?_⟩
          · exact Runs.run_cons.mpr ⟨after, removed, ran⟩
          · have sums : ∀ other, Function.update excess cpu (excess cpu + 1)
                other + calls.countP (ListCall.removesFrom other) =
                excess other + (ListCall.remove cpu thread :: calls).countP
                  (ListCall.removesFrom other) := by
              intro other
              rw [List.countP_cons]
              by_cases target : other = cpu
              · rw [target, Function.update_self,
                  if_pos (by simp [ListCall.removesFrom])]
                omega
              · rw [Function.update_of_ne target,
                  if_neg (by simpa [ListCall.removesFrom] using Ne.symm target),
                  Nat.add_zero]
            simpa only [sums] using kept
          · intro other removedThread member
            rcases List.mem_cons.mp member with first | rest
            · rw [(ListCall.remove.inj first).1]
              exact here.1
            · exact same ▸ within other removedThread rest

/-- Counters that are the lengths of the lists choose a shortest list. -/
theorem Counted.balances
    (counted : s.Counted lists excess)
    (exact_counts : ∀ cpu < s.numCpus,
      s.load cpu = (s.listOf (.threads cpu)).length)
    (allowed : s.Listed (.add thread)) :
    s.Balances thread := by
  have within := leastLoaded_lt s.cpus counted.numCpus_pos
  have added := counted.holds.schedulerAddThread allowed.1
    (counted.fresh allowed)
  refine ⟨leastLoaded s.cpus s.numCpus, within, ?_, ?_, ?_⟩
  · intro other below
    rw [← exact_counts _ within, ← exact_counts other below]
    exact leastLoaded_le s below
  · have spelled := added.spells (.threads (leastLoaded s.cpus s.numCpus))
    rw [Function.update_self] at spelled
    rwa [counted.listOf_eq]
  · intro queue different
    have spelled := added.spells queue
    rw [Function.update_of_ne different] at spelled
    rwa [counted.listOf_eq]

/-- Every sequence of calls from empty lists returns, and afterwards the
counters are the lengths of the lists, and threads are added where the list is
shortest, exactly when no thread has been removed. -/
theorem balanced_iff
    (s : Scheduler) (calls : List ListCall)
    (empty : s.Empty)
    (allowed : Runs.Along listStep Listed s calls) :
    ∃ last, Runs.run listStep s calls = some last ∧
      (last.Balanced ↔
        ∀ cpu thread, ListCall.remove cpu thread ∉ calls) := by
  obtain ⟨last, final, ran, numCpus_eq, counted, within⟩ :=
    empty.counted.run calls allowed
  refine ⟨last, ran, fun balanced cpu thread removed => ?_, fun none => ?_⟩
  · have below : cpu < last.numCpus :=
      numCpus_eq ▸ within cpu thread removed
    have counts := balanced.counts cpu below
    rw [counted.counts cpu, counted.listOf_eq] at counts
    have some : 0 < calls.countP (ListCall.removesFrom cpu) :=
      List.countP_pos_iff.mpr ⟨_, removed, by simp [ListCall.removesFrom]⟩
    omega
  · have zero : ∀ cpu, calls.countP (ListCall.removesFrom cpu) = 0 := by
      intro cpu
      refine List.countP_eq_zero.mpr fun call member removes => ?_
      cases call with
      | add thread => simp [ListCall.removesFrom] at removes
      | remove other thread => exact none other thread member
    have counts : ∀ cpu < last.numCpus,
        last.load cpu = (last.listOf (.threads cpu)).length := by
      intro cpu below
      rw [counted.counts cpu, counted.listOf_eq, zero]
      rfl
    exact ⟨counts, fun thread allowed => counted.balances counts allowed⟩

/-- Three threads, of which two were removed from the first processor. -/
def drained : List ListCall :=
  [.add 2, .add 3, .add 4, .remove 0 2, .remove 0 4]

theorem balanced_iff_sample :
    ∃ last, Runs.run listStep (sample 2) drained = some last ∧
      (last.Balanced ↔
        ∀ cpu thread, ListCall.remove cpu thread ∉ drained) :=
  balanced_iff (sample 2) drained (sample_empty (by decide)) (by decide)

/-- The list of the first processor is empty and its counter is 2, so the
next thread goes to the second processor, in front of another one. -/
theorem drained_not_balanced :
    (sample 2).Empty ∧ Runs.Along listStep Listed (sample 2) drained ∧
      ∃ last, Runs.run listStep (sample 2) drained = some last ∧
        last.listOf (.threads 0) = [] ∧ last.load 0 = 2 ∧
        (last.schedulerAddThread 5).listOf (.threads 1) = [5, 3] ∧
        ¬ last.Balanced := by
  have ends : (Runs.run listStep (sample 2) drained).map
      (fun last => (last.listOf (.threads 0), last.load 0, last.numCpus,
        (last.schedulerAddThread 5).listOf (.threads 1))) =
      some ([], 2, 2, [5, 3]) := by decide
  obtain ⟨last, ran, values⟩ := Option.map_eq_some_iff.mp ends
  simp only [Prod.mk.injEq] at values
  obtain ⟨empty, two, cpus, placed⟩ := values
  refine ⟨sample_empty (by decide), by decide, last, ran, empty, two, placed,
    fun balanced => ?_⟩
  have counts := balanced.counts 0 (by omega)
  rw [empty, two] at counts
  simp at counts

end Scheduler
end PivotOs
