import PivotOs.Acpi.Reclaim
import PivotOs.Smp.Stacks

/-!
# The frame of the trampoline

`init_pmm` marks the frame at `0x8000` for the trampoline, but before it walks
over the memory map, and the walk may clear the mark again.  So may the end of
`init_acpi`, which gives back the memory of the ACPI tables, and the end of a
round of `start_aps`, which gives back 32 bits of a stack's address.  When none
of these clears the mark, no run of the kernel's allocations hands the frame
out.
-/

namespace PivotOs

/-! ## The kernel's calls -/

/-- What the kernel does to the frames between `init_pmm` and the end of
`start_aps`. -/
inductive BootCall
  | alloc
  | map (physical virtual flags p4Tbl : Word)
  | mark (address : Word)
  | clear (address : Word)
  | reclaim
  | release (frame : Word)

namespace BootCall

/-- A round of `start_aps` does not end with `0x8000` for its stack. -/
def Spares (_ : Machine) : BootCall → Prop
  | release frame => stackTopOf frame ≠ 0x9000#32
  | _ => True

end BootCall

namespace Machine

variable {s next : Machine}

/-- Carry out one call.  Only frames that `alloc_frame` has returned are given
back; `release` gives one back as a round of `start_aps` does. -/
def bootExec (map : MemoryMap) (s : Machine) : BootCall → Option Machine
  | .alloc => s.allocFrame.map Prod.snd
  | .map physical virtual flags p4Tbl => mapAddr physical virtual flags p4Tbl s
  | .mark address => some { s with pmm := s.pmm.pmmSetBit address }
  | .clear address =>
      if address ∈ s.allocs then
        some { s with pmm := s.pmm.pmmClearBit address }
      else none
  | .reclaim => some { s with pmm := s.pmm.reclaimAcpi map }
  | .release frame =>
      if frame ∈ s.allocs then
        some { s with
          pmm := s.pmm.pmmClearBit (stackBottom (stackTopOf frame)) }
      else none

/-- Frame `k` is not free, and was never handed out. -/
structure Withheld (k : Nat) (s : Machine) : Prop where
  /-- It is not free. -/
  not_free : ¬ s.pmm.Free k
  /-- It was never handed out. -/
  not_returned : ∀ address ∈ s.allocs, address ≠ 0#64 → frameOf address ≠ k
  /-- What was handed out are frames. -/
  aligned : ∀ address ∈ s.allocs, address.toNat % 4096 = 0

/-- `alloc_frame` takes another frame. -/
theorem Withheld.allocFrame
    {k : Nat} {frame : Word}
    (withheld : Withheld k s)
    (answered : s.allocFrame = some (frame, next)) :
    Withheld k next := by
  cases allocFrame_cases answered with
  | inl failed =>
      obtain ⟨null, -, same⟩ := failed
      rw [same]
      refine ⟨withheld.not_free, ?_, ?_⟩
      · intro address member notNull
        cases List.mem_cons.mp member with
        | inl here => exact absurd here notNull
        | inr before => exact withheld.not_returned address before notNull
      · intro address member
        cases List.mem_cons.mp member with
        | inl here => simp [here]
        | inr before => exact withheld.aligned address before
  | inr succeeded =>
      obtain ⟨taken, -, same⟩ := succeeded
      have log : next.allocs = frame :: s.allocs := by rw [same]
      refine ⟨fun free => withheld.not_free (taken.marked.free free), ?_, ?_⟩
      · intro address member notNull
        rw [log] at member
        cases List.mem_cons.mp member with
        | inl here =>
            rw [here]
            exact fun equal => withheld.not_free (equal ▸ taken.free)
        | inr before => exact withheld.not_returned address before notNull
      · intro address member
        rw [log] at member
        cases List.mem_cons.mp member with
        | inl here => exact here ▸ taken.aligned
        | inr before => exact withheld.aligned address before

/-- The steps of `map_addr` leave a withheld frame withheld. -/
theorem Withheld.closed (k : Nat) :
    StepClosed fun s next => Withheld k s → Withheld k next where
  refl := fun _ => id
  trans := fun first second withheld => second (first withheld)
  touch := fun _ _ withheld => { withheld with }
  store := fun _ _ _ _ withheld => { withheld with }
  hang := fun _ _ _ _ withheld => { withheld with }
  alloc := fun answered withheld => withheld.allocFrame answered

/-- The log of `alloc_frame` only grows. -/
theorem allocs_closed :
    StepClosed fun s next => ∀ frame ∈ s.allocs, frame ∈ next.allocs where
  refl := fun _ _ => id
  trans := fun first second frame member => second frame (first frame member)
  touch := fun _ _ _ => id
  store := fun _ _ _ _ _ => id
  hang := fun _ _ _ _ _ => id
  alloc := by
    intro s next frame answered other member
    obtain ⟨result, -, same⟩ := Option.map_eq_some_iff.mp answered
    rw [← (Prod.mk.inj same).2]
    exact List.mem_cons_of_mem _ member

/-- So does any change of the bitmap that does not clear its bit. -/
theorem Withheld.keep
    {k : Nat} {m : Pmm}
    (withheld : Withheld k s)
    (entries_eq : m.bitmapEntries = s.pmm.bitmapEntries)
    (used : s.pmm.Used k → m.Used k) :
    Withheld k { s with pmm := m } := by
  refine ⟨?_, withheld.not_returned, withheld.aligned⟩
  intro free
  apply withheld.not_free
  exact ⟨entries_eq ▸ free.1, fun old => free.2 (used old)⟩

theorem Withheld.pmmClearBit
    {k : Nat} {address : Word}
    (withheld : Withheld k s)
    (apart : address ≠ 0#64 → frameOf address ≠ k) :
    Withheld k { s with pmm := s.pmm.pmmClearBit address } := by
  apply withheld.keep (Pmm.pmmClearBit_bitmapEntries address)
  intro old
  rw [Pmm.used_pmmClearBit]
  exact ⟨old, fun here => apart here.1 here.2.symm⟩

/-- What a round of `start_aps` gives back is the frame's address in 32
bits. -/
theorem stackBottom_toNat (frame : Word) :
    (stackBottom (stackTopOf frame)).toNat = frame.toNat % 2 ^ 32 ∧
      (stackTopOf frame).toNat = (frame.toNat + 4096) % 2 ^ 32 := by
  simp only [stackBottom, stackTopOf, pageSize, BitVec.toNat_setWidth,
    BitVec.toNat_sub, BitVec.toNat_add, BitVec.toNat_ofNat]
  omega

theorem frameOf_stackBottom_ne
    {frame : Word}
    (spared : stackTopOf frame ≠ 0x9000#32)
    (aligned : frame.toNat % 4096 = 0) :
    frameOf (stackBottom (stackTopOf frame)) ≠ 8 := by
  obtain ⟨bottom, top⟩ := stackBottom_toNat frame
  rw [Ne, BitVec.toNat_eq, top, BitVec.toNat_ofNat] at spared
  rw [frameOf, bottom, pageSize]
  omega

/-- Every call leaves frame 8 withheld, unless it gives the frame back. -/
theorem Withheld.bootExec
    {map : MemoryMap} {call : BootCall}
    (withheld : Withheld 8 s)
    (kept : ¬ map.Reclaims 8)
    (spares : call.Spares s)
    (stepped : s.bootExec map call = some next) :
    Withheld 8 next := by
  cases call with
  | alloc =>
      obtain ⟨⟨frame, machine⟩, answered, rfl⟩ :=
        Option.map_eq_some_iff.mp stepped
      exact withheld.allocFrame answered
  | map physical virtual flags p4Tbl =>
      exact (Withheld.closed 8).mapAddr stepped withheld
  | mark address =>
      obtain rfl := Option.some.inj stepped
      apply withheld.keep (Pmm.pmmSetBit_bitmapEntries address)
      exact (Pmm.Marked.pmmSetBit s.pmm address).used 8
  | clear address =>
      rw [Machine.bootExec] at stepped
      split at stepped
      · rename_i returned
        obtain rfl := Option.some.inj stepped
        exact withheld.pmmClearBit (withheld.not_returned address returned)
      · cases stepped
  | reclaim =>
      obtain rfl := Option.some.inj stepped
      apply withheld.keep (Pmm.reclaimAcpi_bitmapEntries map)
      exact fun old => (Pmm.used_reclaimAcpi map 8).mpr ⟨old, kept⟩
  | release frame =>
      rw [Machine.bootExec] at stepped
      split at stepped
      · rename_i returned
        obtain rfl := Option.some.inj stepped
        apply withheld.pmmClearBit
        intro _
        exact frameOf_stackBottom_ne spares (withheld.aligned frame returned)
      · cases stepped

/-- `init_pmm` withholds a frame that the memory map does not free. -/
theorem initPmm_withheld
    {map : MemoryMap} {m : Pmm} {k : Nat}
    (kept : ¬ map.Frees k)
    (pmm_eq : s.pmm = m.initPmm map)
    (allocs_eq : s.allocs = []) :
    Withheld k s where
  not_free := by
    intro free
    rw [pmm_eq] at free
    have row := free.1
    rw [Pmm.initPmm_bitmapEntries] at row
    exact free.2 ((Pmm.used_initPmm map row).mpr kept)
  not_returned := by simp [allocs_eq]
  aligned := by simp [allocs_eq]

/-- When neither `init_pmm` nor `init_acpi` clears the mark of the trampoline,
and no round of `start_aps` gives it back, the frame at `0x8000` is in no state
of any run among the frames that `alloc_frame` has returned. -/
theorem trampoline_never_returned
    (map : MemoryMap) (m : Pmm) (s last : Machine) (calls : List BootCall)
    (pmm_eq : s.pmm = m.initPmm map)
    (allocs_eq : s.allocs = [])
    (notFreed : ¬ map.Frees 8)
    (notReclaimed : ¬ map.Reclaims 8)
    (spares : Runs.Along (bootExec map) (fun s call => call.Spares s) s calls)
    (ran : Runs.run (bootExec map) s calls = some last) :
    0x8000#64 ∉ last.allocs := by
  have withheld : Withheld 8 last :=
    Runs.run_invariant_along (Withheld 8)
      (fun _ _ _ withheld spares stepped =>
        withheld.bootExec notReclaimed spares stepped)
      (initPmm_withheld notFreed pmm_eq allocs_eq) spares ran
  intro returned
  exact withheld.not_returned _ returned (by decide) (by decide)

/-- A memory map with one area of conventional memory. -/
def conventionalMap (physicalStart count : Word) : MemoryMap where
  descAt := fun _ =>
    { type := 7#32, physicalStart := physicalStart, count := count }
  mmapSize := 48
  mmapDescSize := 48

/-- The machine after `init_pmm` on sixteen pages. -/
def bootMachine (map : MemoryMap) : Machine :=
  { sampleMachine with
    pmm := Pmm.initPmm
      { bitmap := fun _ => 0#64, bitmapEntries := 1, memPages := 16 } map }

theorem trampoline_never_returned_sample :
    ∃ last, Runs.run (bootExec (conventionalMap 0x9000#64 4#64))
        (bootMachine (conventionalMap 0x9000#64 4#64))
        [.alloc, .reclaim, .release 0x9000#64, .alloc] = some last ∧
      last.allocs = [0x9000#64, 0x9000#64] ∧ 0x8000#64 ∉ last.allocs := by
  have observed : (Runs.run (bootExec (conventionalMap 0x9000#64 4#64))
      (bootMachine (conventionalMap 0x9000#64 4#64))
      [.alloc, .reclaim, .release 0x9000#64, .alloc]).map Machine.allocs =
        some [0x9000#64, 0x9000#64] := by decide +kernel
  obtain ⟨last, ran, log⟩ := Option.map_eq_some_iff.mp observed
  refine ⟨last, ran, log, ?_⟩
  refine trampoline_never_returned (conventionalMap 0x9000#64 4#64) _ _ last _
    rfl rfl ?_ ?_ ?_ ran
  · rintro ⟨i, -, -, frees⟩
    have apart : ∀ i, i < 4 →
        8 ≠ frameOf (Pmm.pageAddress 0x9000#64 i) := by decide
    obtain ⟨j, below, -, here⟩ := frees
    exact apart j below here
  · intro reclaims
    have other : (7#32 : BitVec 32) ≠ 9#32 := by decide
    exact other reclaims.1
  · simp [Runs.Along, BootCall.Spares, stackTopOf, pageSize]

/-- With frame 8 in conventional memory, the eighth frame that is handed out is
that of the trampoline. -/
theorem trampoline_returned :
    ¬ ∀ (map : MemoryMap) (m : Pmm) (s last : Machine) (calls : List BootCall),
      s.pmm = m.initPmm map → s.allocs = [] →
      Runs.run (bootExec map) s calls = some last →
        0x8000#64 ∉ last.allocs := by
  intro always
  have observed : (Runs.run (bootExec (conventionalMap 0#64 16#64))
      (bootMachine (conventionalMap 0#64 16#64))
      (List.replicate 8 .alloc)).map
        (fun last => decide (0x8000#64 ∈ last.allocs)) = some true := by
    decide +kernel
  obtain ⟨last, ran, returned⟩ := Option.map_eq_some_iff.mp observed
  exact always _ _ _ last _ rfl rfl ran (of_decide_eq_true returned)

end Machine

/-! ## The calls of `start_aps` -/

namespace Smp

variable {info : SmpInfo} {s next last : Smp}

/-- What a step of `start_aps` before its last statement does to the machine
and to the stacks taken. -/
inductive Effect (s next : Smp) : Prop
  | idle
      (machine_eq : next.machine = s.machine)
      (answers_eq : next.answers = s.answers)
  | alloc (frame : Word)
      (answered : s.machine.allocFrame = some (frame, next.machine))
      (answers_eq : next.answers = (s.id, frame) :: s.answers)
  | map (physical virtual flags p4Tbl : Word)
      (mapped : Machine.mapAddr physical virtual flags p4Tbl s.machine =
        some next.machine)
      (answers_eq : next.answers = s.answers)
  | release (frame : Word)
      (taken : (s.id, frame) ∈ s.answers)
      (machine_eq : next.machine =
        { s.machine with
          pmm := s.machine.pmm.pmmClearBit
            (stackBottom (stackTopOf frame)) })
      (answers_eq : next.answers = s.answers)

theorem apStep_effect
    {id : Nat}
    (stepped : s.apStep id = some next) :
    Effect s next := by
  obtain ⟨-, rfl⟩ | ⟨stackTop, -, rfl⟩ := apStep_cases stepped
  · exact .idle rfl rfl
  · exact .idle rfl rfl

theorem Inv.bootStep_effect
    (inv : Inv info s)
    (running : s.pc ≠ .finish)
    (stepped : s.bootStep info = some next) :
    Effect s next := by
  have recorded := inv.recorded
  unfold Smp.bootStep at stepped
  cases pc : s.pc with
  | finish => exact absurd pc running
  | done => simp [pc] at stepped
  | entry =>
      simp only [pc] at stepped
      obtain ⟨machine, mapped, rfl⟩ := Option.map_eq_some_iff.mp stepped
      exact .map _ _ _ _ mapped rfl
  | alloc =>
      simp only [pc] at stepped
      obtain ⟨result, answered, rfl⟩ := Option.map_eq_some_iff.mp stepped
      exact .alloc result.1 answered rfl
  | mapIdle =>
      simp only [pc] at stepped
      obtain ⟨machine, mapped, rfl⟩ := Option.map_eq_some_iff.mp stepped
      exact .map _ _ _ _ mapped rfl
  | mapKernel =>
      simp only [pc] at stepped
      obtain ⟨machine, mapped, rfl⟩ := Option.map_eq_some_iff.mp stepped
      exact .map _ _ _ _ mapped rfl
  | release =>
      simp only [pc, Recorded] at stepped recorded
      obtain ⟨frame, ⟨⟨earlier, newest⟩, posted⟩, -⟩ := recorded
      obtain rfl := Option.some.inj stepped
      refine .release frame (by simp [newest]) ?_ rfl
      rw [posted]
  | head =>
      simp only [pc] at stepped
      split at stepped
      · split at stepped
        · obtain rfl := Option.some.inj stepped
          exact .idle rfl rfl
        · obtain rfl := Option.some.inj stepped
          exact .idle rfl rfl
      · obtain rfl := Option.some.inj stepped
        exact .idle rfl rfl
  | wait =>
      simp only [pc] at stepped
      split at stepped
      · obtain rfl := Option.some.inj stepped
        exact .idle rfl rfl
      · obtain rfl := Option.some.inj stepped
        exact .idle rfl rfl
  | copy =>
      simp only [pc, Option.some.injEq] at stepped
      subst stepped
      exact .idle rfl rfl
  | store frame =>
      simp only [pc, Option.some.injEq] at stepped
      subst stepped
      exact .idle rfl rfl
  | publish =>
      simp only [pc, Option.some.injEq] at stepped
      subst stepped
      exact .idle rfl rfl
  | start =>
      simp only [pc, Option.some.injEq] at stepped
      subst stepped
      exact .idle rfl rfl

/-- The stacks taken are in the log of `alloc_frame`, and when none of them
ends at `0x9000` in 32 bits, frame 8 is withheld. -/
structure Guarded (s : Smp) : Prop where
  /-- The stacks are in the log. -/
  logged : ∀ answer ∈ s.answers, answer.2 ∈ s.machine.allocs
  /-- Frame 8 is withheld. -/
  withheld : (∀ answer ∈ s.answers, stackTopOf answer.2 ≠ 0x9000#32) →
    Machine.Withheld 8 s.machine

theorem Guarded.effect
    (guarded : s.Guarded)
    (effect : Effect s next) :
    next.Guarded := by
  cases effect with
  | idle machine_eq answers_eq =>
      refine ⟨?_, ?_⟩ <;> rw [answers_eq, machine_eq]
      · exact guarded.logged
      · exact guarded.withheld
  | alloc frame answered answers_eq =>
      refine ⟨?_, ?_⟩ <;> rw [answers_eq]
      · intro answer member
        obtain ⟨result, -, same⟩ := Option.map_eq_some_iff.mp answered
        obtain ⟨here, machine_eq⟩ := Prod.mk.inj same
        rw [← machine_eq, here]
        cases List.mem_cons.mp member with
        | inl newest => exact newest ▸ List.mem_cons_self
        | inr earlier =>
            exact List.mem_cons_of_mem _ (guarded.logged answer earlier)
      · intro spares
        have before := guarded.withheld fun answer member =>
          spares answer (List.mem_cons_of_mem _ member)
        exact before.allocFrame answered
  | map physical virtual flags p4Tbl mapped answers_eq =>
      refine ⟨?_, ?_⟩ <;> rw [answers_eq]
      · intro answer member
        exact Machine.allocs_closed.mapAddr mapped _
          (guarded.logged answer member)
      · intro spares
        exact (Machine.Withheld.closed 8).mapAddr mapped
          (guarded.withheld spares)
  | release frame taken machine_eq answers_eq =>
      refine ⟨?_, ?_⟩ <;> rw [answers_eq, machine_eq]
      · exact guarded.logged
      · intro spares
        have before := guarded.withheld spares
        apply before.pmmClearBit
        intro _
        exact Machine.frameOf_stackBottom_ne (spares (s.id, frame) taken)
          (before.aligned frame (guarded.logged (s.id, frame) taken))

/-- Until `start_aps` returns, the stacks are guarded. -/
theorem guarded_step
    {action : SmpAction}
    (inv : Inv info s)
    (guarded : s.pc ≠ .done → s.Guarded)
    (stepped : s.step info action = some next)
    (running : next.pc ≠ .done) :
    next.Guarded := by
  cases action with
  | ap id =>
      have same : next.pc = s.pc := by
        obtain ⟨-, rfl⟩ | ⟨stackTop, -, rfl⟩ := apStep_cases stepped
        · rfl
        · rfl
      exact (guarded (same ▸ running)).effect (apStep_effect stepped)
  | boot =>
      have moved : s.bootStep info = some next := stepped
      by_cases finishing : s.pc = .finish
      · simp only [Smp.bootStep, finishing, Option.some.injEq] at moved
        exact absurd (moved ▸ rfl) running
      · have unfinished : s.pc ≠ .done := by
          intro done
          simp [Smp.bootStep, done] at moved
        exact (guarded unfinished).effect (inv.bootStep_effect finishing moved)

/-- In every run of `start_aps` from a machine in which frame 8 is withheld,
the frame of the trampoline is not among the frames that `alloc_frame` has
returned before the last statement, as long as no stack ends at `0x9000` in 32
bits. -/
theorem startAps_keeps_trampoline
    {machine : Machine} {apBoot : ApInfo} {stackOf : Nat → Word}
    {lapic : Lapic} {actions : List SmpAction}
    (withheld : Machine.Withheld 8 machine)
    (ran : Runs.run (step info) (begin machine apBoot stackOf lapic) actions =
      some last)
    (running : last.pc ≠ .done)
    (spares : ∀ answer ∈ last.answers, stackTopOf answer.2 ≠ 0x9000#32) :
    0x8000#64 ∉ last.machine.allocs := by
  have kept : Inv info last ∧ (last.pc ≠ .done → last.Guarded) := by
    apply Runs.run_invariant
      (fun s => Inv info s ∧ (s.pc ≠ .done → s.Guarded)) ?_ ?_ ran
    · rintro s action next ⟨inv, guarded⟩ stepped
      exact ⟨inv.step stepped, guarded_step inv guarded stepped⟩
    · refine ⟨begin_inv info, fun _ => ⟨?_, fun _ => withheld⟩⟩
      simp [begin]
  intro returned
  have last8 := (kept.2 running).withheld spares
  exact last8.not_returned _ returned (by decide) (by decide)

end Smp
end PivotOs
