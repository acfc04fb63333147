import PivotOs.Smp.Defs
import PivotOs.Pmm.Frames
import PivotOs.Library.Runs
import PivotOs.Paging.MapAddr

/-!
# The stacks of the started processors

Each processor that `start_aps` starts should keep the frame that was taken for
its stack.  The boot processor gives the frame back as soon as the wait for
`ready` is over, and what it gives back is 32 bits of the frame's address.  So
when the address fits into 32 bits the stack is free again, and when it does
not, `KCPUS[id].stack` names another frame.
-/

namespace PivotOs

namespace Smp

/-- Every started processor has the frame that `alloc_frame` returned for it,
no two have the same, the frames are in use, and `stack_top` was never written
before the last processor had signalled. -/
structure KeepsStacks (s : Smp) : Prop where
  /-- The stack is the frame that was returned. -/
  returned : ∀ answer ∈ s.answers,
    answer.2 ≠ 0#64 ∧ s.stackOf answer.1 = answer.2
  /-- Different processors have different stacks. -/
  distinct : s.answers.Pairwise fun later earlier => later.2 ≠ earlier.2
  /-- The stacks are in use. -/
  used : ∀ answer ∈ s.answers, s.machine.pmm.Used (frameOf answer.2)
  /-- The mailbox was read in time. -/
  inTime : s.early = false

/-- The address that is stored as the stack of a processor, and later given
back. -/
def storedStack (frame : Word) : Word := stackBottom (stackTopOf frame)

/-! ## What holds at each step -/

/-- The newest stack was stored, and its frame given back. -/
def Released (s : Smp) : Prop :=
  ∀ id frame earlier, s.answers = (id, frame) :: earlier →
    s.stackOf id = storedStack frame ∧
      (storedStack frame = 0#64 ∨
        ¬ s.machine.pmm.Used (frameOf (storedStack frame)))

/-- The newest stack is that of the current processor. -/
def Current (s : Smp) (frame : Word) : Prop :=
  ∃ earlier, s.answers = (s.id, frame) :: earlier

/-- The newest stack is that of the current processor, and its top is in the
mailbox. -/
def Posted (s : Smp) (frame : Word) : Prop :=
  s.Current frame ∧ s.apBoot.stackTop = stackTopOf frame

/-- Where the newest stack is recorded when the boot processor is at its
`pc`. -/
def Recorded (s : Smp) : Prop :=
  match s.pc with
  | .entry | .copy => s.answers = []
  | .store frame => s.Current frame
  | .publish => ∃ frame, s.Posted frame
  | .mapIdle | .mapKernel | .start | .wait | .release =>
      ∃ frame, s.Posted frame ∧ s.stackOf s.id = storedStack frame
  | _ => s.Released

/-- What holds at every step of `start_aps`. -/
structure Inv (info : SmpInfo) (s : Smp) : Prop where
  /-- The newest stack is where it should be. -/
  recorded : s.Recorded
  /-- Every processor before the current one has been started, the boot
  processor apart. -/
  passed : ∀ id, id < s.id → id = info.cpu.toNat ∨ id ∈ s.answers.map Prod.fst
  /-- Only other processors are started. -/
  due : ∀ id ∈ s.answers.map Prod.fst, id < info.numCpus ∧ id ≠ info.cpu.toNat
  /-- Inside the loop the current processor is one of them. -/
  inside : s.pc = .alloc → s.id < info.numCpus ∧ s.id ≠ info.cpu.toNat
  /-- After a round it has been started. -/
  current : s.pc = .release → s.id ∈ s.answers.map Prod.fst
  /-- The loop ends behind the last processor. -/
  ended : s.pc = .finish ∨ s.pc = .done → info.numCpus ≤ s.id
  /-- The first stack overwrites nothing. -/
  early : s.answers = [] → s.early = false

variable {info : SmpInfo} {s next : Smp}

/-- A started processor loads its stack, and later says that it is ready. -/
theorem apStep_cases
    {id : Nat}
    (stepped : s.apStep id = some next) :
    (s.aps id = .started ∧
        next =
          { s with
            aps := fun other =>
              if other = id then .loaded s.apBoot.stackTop else s.aps other }) ∨
      ∃ stackTop, s.aps id = .loaded stackTop ∧
        next =
          { s with
            apBoot := { s.apBoot with ready := 1#8 }
            aps := fun other =>
              if other = id then .signalled else s.aps other } := by
  rw [Smp.apStep] at stepped
  cases phase : s.aps id with
  | off => simp [phase] at stepped
  | signalled => simp [phase] at stepped
  | started =>
      simp only [phase, Option.some.injEq] at stepped
      exact Or.inl ⟨rfl, stepped.symm⟩
  | loaded stackTop =>
      simp only [phase, Option.some.injEq] at stepped
      exact Or.inr ⟨stackTop, rfl, stepped.symm⟩

/-- Steps of the other processors change nothing that the boot processor
recorded. -/
theorem Inv.apStep
    {id : Nat}
    (inv : Inv info s)
    (stepped : s.apStep id = some next) :
    Inv info next := by
  obtain ⟨-, rfl⟩ | ⟨stackTop, -, rfl⟩ := apStep_cases stepped
  · exact { inv with }
  · exact { inv with }

theorem Current.mem
    {frame : Word}
    (current : s.Current frame) :
    s.id ∈ s.answers.map Prod.fst := by
  obtain ⟨earlier, newest⟩ := current
  simp [newest]

/-- The trampoline is put in place before any stack is taken. -/
theorem Inv.prepare
    (inv : Inv info s)
    (stepped : s.bootStep info = some next)
    (before : s.pc = .entry ∨ s.pc = .copy) :
    Inv info next := by
  have recorded := inv.recorded
  unfold bootStep at stepped
  rcases before with pc | pc <;> simp only [pc, Recorded] at stepped recorded
  · obtain ⟨machine, -, rfl⟩ := Option.map_eq_some_iff.mp stepped
    exact
      { inv with
        recorded := recorded
        inside := by simp
        current := by simp
        ended := by simp }
  · obtain rfl := Option.some.inj stepped
    refine
      { inv with
        recorded := ?_
        inside := by simp
        current := by simp
        ended := by simp }
    intro id frame earlier newest
    exact absurd newest (by simp [recorded])

/-- The head of the loop. -/
theorem Inv.head
    (inv : Inv info s)
    (stepped : s.bootStep info = some next)
    (pc : s.pc = .head) :
    Inv info next := by
  have recorded := inv.recorded
  unfold bootStep at stepped
  simp only [pc, Recorded] at stepped recorded
  split at stepped
  · rename_i below
    split at stepped
    · rename_i boot
      obtain rfl := Option.some.inj stepped
      refine
        { inv with
          recorded := ?_
          passed := ?_
          inside := by simp
          current := by simp
          ended := by simp }
      · exact recorded
      · intro id before
        cases Nat.lt_succ_iff_lt_or_eq.mp before with
        | inl earlier => exact inv.passed id earlier
        | inr here => exact Or.inl (here.trans boot)
    · rename_i other
      obtain rfl := Option.some.inj stepped
      exact
        { inv with
          recorded := recorded
          inside := fun _ => ⟨below, other⟩
          current := by simp
          ended := by simp }
  · rename_i behind
    obtain rfl := Option.some.inj stepped
    exact
      { inv with
        recorded := recorded
        inside := by simp
        current := by simp
        ended := fun _ => Nat.le_of_not_lt behind }

/-- A stack is taken for the current processor. -/
theorem Inv.alloc
    (inv : Inv info s)
    (stepped : s.bootStep info = some next)
    (pc : s.pc = .alloc) :
    Inv info next := by
  unfold bootStep at stepped
  simp only [pc] at stepped
  obtain ⟨result, -, rfl⟩ := Option.map_eq_some_iff.mp stepped
  refine
    { recorded := ⟨s.answers, rfl⟩
      passed := ?_
      due := ?_
      inside := by simp
      current := by simp
      ended := by simp
      early := by simp }
  · intro id before
    cases inv.passed id before with
    | inl boot => exact Or.inl boot
    | inr started => exact Or.inr (List.mem_cons_of_mem _ started)
  · intro id member
    cases List.mem_cons.mp member with
    | inl here => exact here ▸ inv.inside pc
    | inr earlier => exact inv.due id earlier

/-- The stack is recorded in the mailbox and in `KCPUS`. -/
theorem Inv.record
    (inv : Inv info s)
    (stepped : s.bootStep info = some next)
    (recording : (∃ frame, s.pc = .store frame) ∨ s.pc = .publish) :
    Inv info next := by
  have recorded := inv.recorded
  unfold bootStep at stepped
  rcases recording with ⟨frame, pc⟩ | pc <;>
    simp only [pc, Recorded] at stepped recorded
  · obtain rfl := Option.some.inj stepped
    obtain ⟨earlier, newest⟩ := recorded
    exact
      { inv with
        recorded := ⟨frame, ⟨earlier, newest⟩, rfl⟩
        inside := by simp
        current := by simp
        ended := by simp
        early := by simp [newest] }
  · obtain rfl := Option.some.inj stepped
    obtain ⟨frame, current, posted⟩ := recorded
    refine
      { inv with
        recorded := ⟨frame, ⟨current, posted⟩, ?_⟩
        inside := by simp
        current := by simp
        ended := by simp }
    simp [storedStack, posted]

/-- Between the mapping of the stack and the end of the wait, the records
stay. -/
theorem Inv.launch
    (inv : Inv info s)
    (stepped : s.bootStep info = some next)
    (launching : s.pc = .mapIdle ∨ s.pc = .mapKernel ∨ s.pc = .start ∨
      s.pc = .wait) :
    Inv info next := by
  have recorded := inv.recorded
  unfold bootStep at stepped
  rcases launching with pc | pc | pc | pc <;>
    simp only [pc, Recorded] at stepped recorded
  · obtain ⟨machine, -, rfl⟩ := Option.map_eq_some_iff.mp stepped
    exact
      { inv with
        recorded := recorded
        inside := by simp
        current := by simp
        ended := by simp }
  · obtain ⟨machine, -, rfl⟩ := Option.map_eq_some_iff.mp stepped
    exact
      { inv with
        recorded := recorded
        inside := by simp
        current := by simp
        ended := by simp }
  · obtain rfl := Option.some.inj stepped
    exact
      { inv with
        recorded := recorded
        inside := by simp
        current := by simp
        ended := by simp }
  · split at stepped
    · obtain rfl := Option.some.inj stepped
      exact inv
    · obtain rfl := Option.some.inj stepped
      exact
        { inv with
          recorded := recorded
          inside := by simp
          current := fun _ => recorded.choose_spec.1.1.mem
          ended := by simp }

/-- Clearing another bit leaves clear what was clear. -/
theorem Released.clear
    (address : Word)
    (released : s.Released)
    (answers_eq : next.answers = s.answers)
    (stackOf_eq : next.stackOf = s.stackOf)
    (pmm_eq : next.machine.pmm = s.machine.pmm.pmmClearBit address) :
    next.Released := by
  intro id frame earlier newest
  rw [answers_eq] at newest
  rw [stackOf_eq, pmm_eq, Pmm.used_pmmClearBit]
  obtain ⟨stored, free⟩ := released id frame earlier newest
  exact ⟨stored, free.imp_right (mt And.left)⟩

/-- Clearing the bit of the newest stack releases it. -/
theorem Released.of_clear
    {id : Nat} {frame : Word} {earlier : List (Nat × Word)} {m : Pmm}
    (newest : next.answers = (id, frame) :: earlier)
    (stored : next.stackOf id = storedStack frame)
    (pmm_eq : next.machine.pmm = m.pmmClearBit (storedStack frame)) :
    next.Released := by
  intro other otherFrame rest same
  obtain ⟨head, -⟩ := List.cons.inj (newest.symm.trans same)
  obtain ⟨rfl, rfl⟩ := Prod.mk.inj head
  refine ⟨stored, ?_⟩
  rw [pmm_eq, Pmm.used_pmmClearBit]
  by_cases null : storedStack frame = 0#64
  · exact Or.inl null
  · exact Or.inr fun used => used.2 ⟨null, rfl⟩

/-- The stack, or what 32 bits of its address name, is given back. -/
theorem Inv.giveBack
    (inv : Inv info s)
    (stepped : s.bootStep info = some next)
    (releasing : s.pc = .release ∨ s.pc = .finish) :
    Inv info next := by
  have recorded := inv.recorded
  unfold bootStep at stepped
  rcases releasing with pc | pc <;>
    simp only [pc, Recorded] at stepped recorded
  · obtain rfl := Option.some.inj stepped
    obtain ⟨frame, ⟨⟨earlier, newest⟩, posted⟩, stored⟩ := recorded
    refine
      { inv with
        recorded := ?_
        passed := ?_
        inside := by simp
        current := by simp
        ended := by simp }
    · change Released _
      refine Released.of_clear (m := s.machine.pmm) newest stored ?_
      rw [storedStack, ← posted]
    · intro id before
      cases Nat.lt_succ_iff_lt_or_eq.mp before with
      | inl passed => exact inv.passed id passed
      | inr here => exact Or.inr (here ▸ inv.current pc)
  · obtain rfl := Option.some.inj stepped
    refine
      { inv with
        recorded := ?_
        inside := by simp
        current := by simp
        ended := fun _ => inv.ended (Or.inl pc) }
    change Released _
    exact Released.clear 0x8000#64 recorded rfl rfl rfl

theorem Inv.bootStep
    (inv : Inv info s)
    (stepped : s.bootStep info = some next) :
    Inv info next := by
  cases pc : s.pc with
  | entry => exact inv.prepare stepped (Or.inl pc)
  | copy => exact inv.prepare stepped (Or.inr pc)
  | head => exact inv.head stepped pc
  | alloc => exact inv.alloc stepped pc
  | store frame => exact inv.record stepped (Or.inl ⟨frame, pc⟩)
  | publish => exact inv.record stepped (Or.inr pc)
  | mapIdle => exact inv.launch stepped (Or.inl pc)
  | mapKernel => exact inv.launch stepped (Or.inr (Or.inl pc))
  | start => exact inv.launch stepped (Or.inr (Or.inr (Or.inl pc)))
  | wait => exact inv.launch stepped (Or.inr (Or.inr (Or.inr pc)))
  | release => exact inv.giveBack stepped (Or.inl pc)
  | finish => exact inv.giveBack stepped (Or.inr pc)
  | done => simp [Smp.bootStep, pc] at stepped

theorem Inv.step
    {action : SmpAction}
    (inv : Inv info s)
    (stepped : s.step info action = some next) :
    Inv info next := by
  cases action with
  | boot => exact inv.bootStep stepped
  | ap id => exact inv.apStep stepped

/-! ## Whole runs -/

section Runs

variable {machine : Machine} {apBoot : ApInfo} {stackOf : Nat → Word}
variable {lapic : Lapic}

theorem begin_inv (info : SmpInfo) :
    Inv info (begin machine apBoot stackOf lapic) where
  recorded := rfl
  passed := by simp [begin]
  due := by simp [begin]
  inside := by simp [begin]
  current := by simp [begin]
  ended := by simp [begin]
  early := fun _ => rfl

theorem run_inv
    {actions : List SmpAction} {last : Smp}
    (ran : Runs.run (step info) (begin machine apBoot stackOf lapic) actions =
      some last) :
    Inv info last :=
  Runs.run_invariant (Inv info) (fun _ _ _ inv stepped => inv.step stepped)
    (begin_inv info) ran

end Runs

/-- When `start_aps` has returned, no stack has been taken exactly when there
was no other processor to start. -/
theorem Inv.answers_eq_nil_iff
    (inv : Inv info s)
    (ended : s.pc = .done) :
    s.answers = [] ↔ ∀ id, id < info.numCpus → id = info.cpu.toNat := by
  constructor
  · intro none id below
    have passed := inv.passed id
      (lt_of_lt_of_le below (inv.ended (Or.inr ended)))
    simpa [none] using passed
  · intro alone
    rw [← List.map_eq_nil_iff (f := Prod.fst), List.eq_nil_iff_forall_not_mem]
    intro id member
    obtain ⟨below, other⟩ := inv.due id member
    exact other (alone id below)

/-- When `start_aps` has returned, the last stack is not kept. -/
theorem Inv.not_keepsStacks
    (inv : Inv info s)
    (ended : s.pc = .done)
    (started : s.answers ≠ []) :
    ¬ s.KeepsStacks := by
  intro keeps
  obtain ⟨⟨id, frame⟩, earlier, newest⟩ := List.exists_cons_of_ne_nil started
  have member : (id, frame) ∈ s.answers := by simp [newest]
  have released : s.Released := by
    have recorded := inv.recorded
    simpa only [Recorded, ended] using recorded
  obtain ⟨stored, free⟩ := released id frame earlier newest
  obtain ⟨notNull, same⟩ := keeps.returned (id, frame) member
  -- The stored address is that of the frame, so it is its bit that was cleared.
  have whole : storedStack frame = frame := stored.symm.trans same
  rw [whole] at free
  cases free with
  | inl null => exact notNull null
  | inr unused => exact unused (keeps.used (id, frame) member)

/-- In every run of `start_aps` that returns, the processors keep their stacks
if and only if there was no processor to start. -/
theorem keepsStacks_iff
    (info : SmpInfo) (machine : Machine) (apBoot : ApInfo)
    (stackOf : Nat → Word) (lapic : Lapic) (actions : List SmpAction)
    (last : Smp)
    (ran : Runs.run (step info) (begin machine apBoot stackOf lapic) actions =
      some last)
    (ended : last.pc = .done) :
    last.KeepsStacks ↔ ∀ id, id < info.numCpus → id = info.cpu.toNat := by
  have inv := run_inv ran
  rw [← inv.answers_eq_nil_iff ended]
  constructor
  · intro keeps
    by_contra started
    exact inv.not_keepsStacks ended started keeps
  · intro none
    exact
      { returned := by simp [none]
        distinct := by simp [none]
        used := by simp [none]
        inTime := inv.early none }

/-- Two processors, the boot processor being the first. -/
def sampleInfo : SmpInfo where
  numCpus := 2
  cpu := 0#8
  idle := 0x2000#64
  gdtr := 0#64
  idtr := 0#64
  oneshot := 0#64
  msInterval := 0#64

/-- The call of `start_aps` on the sample machine in x2APIC mode. -/
def sampleBegin : Smp :=
  begin Machine.sampleMachine ⟨0#64, 0#32, 0#64, 0#64, 0#8⟩ (fun _ => 0#64)
    ⟨true, fun _ => 0#32, []⟩

/-- The second processor loads its stack and signals while the boot processor
waits. -/
def sampleActions : List SmpAction :=
  List.replicate 11 .boot ++ [.ap 1, .ap 1] ++ List.replicate 4 .boot

/-- The run ends with the stack of the second processor free. -/
theorem sampleActions_run :
    ∃ last, Runs.run (step sampleInfo) sampleBegin sampleActions = some last ∧
      last.pc = .done ∧ ∃ answer ∈ last.answers,
        ¬ last.machine.pmm.Used (frameOf answer.2) := by
  have observed : (Runs.run (step sampleInfo) sampleBegin sampleActions).map
      (fun last => (last.pc, last.answers.map fun answer =>
        decide (last.machine.pmm.Used (frameOf answer.2)))) =
      some (.done, [false]) := by decide +kernel
  obtain ⟨last, ran, same⟩ := Option.map_eq_some_iff.mp observed
  obtain ⟨ended, bits⟩ := Prod.mk.inj same
  have member : false ∈ last.answers.map fun answer =>
      decide (last.machine.pmm.Used (frameOf answer.2)) := by
    rw [bits]
    exact List.mem_singleton_self false
  obtain ⟨answer, taken, unused⟩ := List.mem_map.mp member
  exact ⟨last, ran, ended, answer, taken, of_decide_eq_false unused⟩

theorem keepsStacks_iff_sample :
    ∃ last, Runs.run (step sampleInfo) sampleBegin sampleActions = some last ∧
      last.pc = .done ∧
      (last.KeepsStacks ↔ ∀ id, id < 2 → id = 0) := by
  obtain ⟨last, ran, ended, -⟩ := sampleActions_run
  exact ⟨last, ran, ended, keepsStacks_iff sampleInfo _ _ _ _ _ last ran ended⟩

/-- With one processor to start, its stack is free when `start_aps` returns. -/
theorem stack_given_back :
    ¬ ∀ (info : SmpInfo) (machine : Machine) (apBoot : ApInfo)
      (stackOf : Nat → Word) (lapic : Lapic) (actions : List SmpAction)
      (last : Smp),
      Runs.run (step info) (begin machine apBoot stackOf lapic) actions =
        some last →
      last.pc = .done → last.KeepsStacks := by
  intro always
  obtain ⟨last, ran, ended, answer, taken, unused⟩ := sampleActions_run
  exact unused ((always _ _ _ _ _ _ last ran ended).used answer taken)

end Smp
end PivotOs
