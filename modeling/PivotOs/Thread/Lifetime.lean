import PivotOs.Paging.Free
import PivotOs.Thread.SelfMap
import PivotOs.Vmm.Release
import Mathlib.Data.Nat.ModEq

/-!
# From `create_thread` to `free_thread`

A thread owns two structures in the heap of the kernel, a tree of page tables,
and the frames of its window, heap and stack.  `free_thread` gives the stack,
the tables and the heap back, but never calls `hfree`, so the two structures
stay in the heap of the kernel for good.
-/

namespace PivotOs

/-! ## Making a thread -/

/-- `sizeof(thread_t)`. -/
def threadSize : Nat := 144

/-- `sizeof(cpu_status_t)`. -/
def cpuStatusSize : Nat := 176

/-- The kernel as far as threads change it. -/
structure Kernel where
  /-- Page tables and frames. -/
  machine : Machine
  /-- The bytes of the kernel's heap. -/
  mem : Memory
  /-- The regions of `KHEAP`, first one first. -/
  heap : List Bitmap

/-- What `create_thread` stores into `*ef`; the other registers keep what the
block held before. -/
def CpuStatus.enter (threadWrapper entryPoint : Word) (safety : Bool)
    (stack : Nat) (stale : CpuStatus) : CpuStatus :=
  { stale with
    intNo := 0x101#64
    errCode := 0#64
    rip := if safety then threadWrapper else entryPoint
    rdi := if safety then entryPoint else stale.rdi
    rflags := 0x202#64
    ss := (4#64 * 8#64) ||| 3#64
    cs := (3#64 * 8#64) ||| 3#64
    rsp := BitVec.ofNat 64 (stack + threadStackPages * pageSize)
    rbp := 0#64 }

/-- `create_thread`: the pointer it returns, what it points to, and the kernel.
`window` are the bytes that the frames of the thread's window will hold, `vmm`
and `stale` what the two new structures hold.  A null structure faults at the
first store into it, and the result is then `none`. -/
def createThread (info : KernelInfo) (threadWrapper : Word) (window : Memory)
    (vmm : Vmm) (stale : CpuStatus) (name : ThreadName) (entryPoint : Word)
    (safety : Bool) (k : Kernel) : Option (Nat × ThreadT × Kernel) :=
  let thread := Bitmap.halloc threadSize k.mem k.heap
  let ef := Bitmap.halloc cpuStatusSize thread.2.1 thread.2.2
  if thread.1 = 0 ∨ ef.1 = 0 then none
  else
    (initThreadVmm { info with heap := ef.2.2 } window vmm k.machine).map
      fun made =>
        (thread.1,
          { name := name
            stack := made.1.stack
            status := .new
            ticks := 0
            ef := ef.1
            saved := stale.enter threadWrapper entryPoint safety made.1.stack
            wakeupTime := 0
            vmm := made.2.vi
            heap := made.1.heap
            next := 0 },
          { machine := made.2.machine, mem := ef.2.1, heap := ef.2.2 })

/-! ## Giving a thread back -/

/-- The 64-bit number at an address. -/
def Memory.word (mem : Memory) (address : Nat) : Nat :=
  (List.range 8).foldr (fun i value =>
    (mem (wrap (address + i))).toNat + 256 * value) 0

/-- Offset of `next` in a `heap_t`. -/
def heapNext : Nat := 40

namespace Space

/-- The addresses that `vfree` hands to `pmm_clear_bit`. -/
def vfreed (address : Nat) (s : Space) : List Word :=
  (List.range ((Bitmap.bmFree s.mem address s.vi.bm).1 / pageSize)).map
    fun i => s.machine.translateAddr
      (Pmm.pageAddress (BitVec.ofNat 64 address) i) s.vi.p4Tbl

/-- `free_heap`: the addresses handed to `pmm_clear_bit` and the state.  The
chain is whatever the memory holds, so it may be endless: `none` when the fuel
does not last. -/
def freeHeap : (fuel : Nat) → (b : Nat) → Space → Option (List Word × Space)
  | 0, _, _ => none
  | fuel + 1, b, s =>
      if b = 0 then some ([], s)
      else
        let after := s.vfree b
        (freeHeap fuel (after.mem.word (b + heapNext)) after).map fun rest =>
          (s.vfreed b ++ rest.1, rest.2)

end Space

/-- `free_thread`: the addresses handed to `pmm_clear_bit` and the kernel.
`seen` are the bytes that the thread's window shows where `free_thread` runs,
under the kernel's page tables. -/
def freeThread (fuel : Nat) (seen : Memory) (thread : ThreadT) (k : Kernel) :
    Option (List Word × Kernel) :=
  let s : Space := { machine := k.machine, mem := seen, vi := thread.vmm }
  let after := s.vfree thread.stack
  let kernel := after.machine.loadCr3 (paddr after.machine.pml4)
  let p4Tbl := thread.vmm.p4Tbl
  (Space.freeHeap fuel thread.heap
      { after with machine := kernel.freePageTable 4 p4Tbl }).map fun rest =>
    (s.vfreed thread.stack ++
        ((Machine.freedTables kernel.tables 4 p4Tbl).map paddr ++ rest.1),
      { k with machine := rest.2.machine })

/-! ## The frames that are given back -/

/-- Every bit whose address is on the list is clear, and the others are as
they were. -/
def Clears (released : List Word) (m after : Pmm) : Prop :=
  ∀ k, after.Used k ↔
    m.Used k ∧ ∀ address ∈ released, ¬ (address ≠ 0#64 ∧ k = frameOf address)

namespace Clears

variable {m middle after : Pmm} {first second : List Word}

theorem refl (m : Pmm) : Clears [] m m := by
  simp [Clears]

theorem trans
    (left : Clears first m middle)
    (right : Clears second middle after) :
    Clears (first ++ second) m after := by
  intro k
  rw [right k, left k, List.forall_mem_append, and_assoc]

end Clears

namespace Space

theorem clears_clearFrames (s : Machine) (start p4Tbl : Word) (count : Nat) :
    Clears ((List.range count).map fun i =>
        s.translateAddr (Pmm.pageAddress start i) p4Tbl)
      s.pmm (s.clearFrames start p4Tbl count).pmm := by
  induction count with
  | zero => exact Clears.refl s.pmm
  | succ count inductionHypothesis =>
      rw [List.range_succ, List.map_append]
      refine inductionHypothesis.trans ?_
      intro k
      rw [Machine.clearFrames, Pmm.used_pmmClearBit,
        Machine.clearFrames_translateAddr]
      simp

theorem clears_vfree (s : Space) (address : Nat) :
    Clears (s.vfreed address) s.machine.pmm (s.vfree address).machine.pmm :=
  clears_clearFrames s.machine _ _ _

theorem clears_freeHeap
    {fuel b : Nat} {s last : Space} {released : List Word}
    (ran : freeHeap fuel b s = some (released, last)) :
    Clears released s.machine.pmm last.machine.pmm := by
  induction fuel generalizing b s released with
  | zero => simp [freeHeap] at ran
  | succ fuel inductionHypothesis =>
      rw [freeHeap] at ran
      split at ran
      · obtain ⟨rfl, rfl⟩ := Prod.mk.inj (Option.some.inj ran)
        exact Clears.refl _
      · obtain ⟨rest, walked, result⟩ := Option.map_eq_some_iff.mp ran
        obtain ⟨rfl, rfl⟩ := Prod.mk.inj result
        exact (clears_vfree s b).trans (inductionHypothesis walked)

end Space

/-- `free_thread` clears the bits of the frames it names, and no others. -/
theorem clears_freeThread
    {fuel : Nat} {seen : Memory} {thread : ThreadT} {k last : Kernel}
    {released : List Word}
    (ran : freeThread fuel seen thread k = some (released, last)) :
    Clears released k.machine.pmm last.machine.pmm := by
  obtain ⟨rest, walked, result⟩ := Option.map_eq_some_iff.mp ran
  obtain ⟨rfl, rfl⟩ := Prod.mk.inj result
  refine (Space.clears_vfree _ _).trans
    (Clears.trans ?_ (Space.clears_freeHeap walked))
  intro frame
  simp only [Machine.freePageTable_eq, List.forall_mem_map]
  exact Machine.used_clearTables _ _ frame

/-! ## The blocks of the kernel's heap -/

namespace Bitmap

variable {mem : Memory} {size : Nat} {b : Bitmap} {chain : List Bitmap}

/-- The region lies in the address space, above page 0. -/
def InSpace (b : Bitmap) : Prop :=
  pageSize ≤ b.bm ∧ b.bm + b.size < 2 ^ 64

/-- Blocks of a region that are taken. -/
def takenBlocks (mem : Memory) (b : Bitmap) : Set Nat :=
  { i | i < b.tblocks ∧ getBm mem b.bm i ≠ 0#8 }

/-- All used blocks of a chain. -/
def usedTotal (chain : List Bitmap) : Nat := (chain.map used).sum

/-- `DIV_CEIL` of a small number by the size of a block. -/
theorem divCeil_bounds
    (inSpace : b.InSpace)
    (some_blocks : 0 < b.tblocks)
    (positive : 0 < size)
    (small : size ≤ pageSize) :
    0 < divCeil size b.bsize ∧ divCeil size b.bsize ≤ size := by
  have bsize_le : b.bsize ≤ b.size ∧ 0 < b.bsize := by
    by_contra wrong
    have none : b.size / b.bsize = 0 := Nat.div_eq_zero_iff.mpr (by omega)
    rw [tblocks, none] at some_blocks
    exact absurd some_blocks (Nat.lt_irrefl 0)
  have noWrap : size + (b.bsize - 1) < 2 ^ 64 := by
    have above := inSpace.1
    have below := inSpace.2
    omega
  rw [divCeil, wrap_of_lt noWrap]
  constructor
  · exact Nat.div_pos (by omega) bsize_le.2
  · have few : size + (b.bsize - 1) < (size + 1) * b.bsize := by
      have grows : size * 1 ≤ size * b.bsize :=
        Nat.mul_le_mul_left size bsize_le.2
      rw [Nat.add_mul]
      omega
    exact Nat.le_of_lt_succ (Nat.div_lt_of_lt_mul (by rwa [Nat.mul_comm] at few))

/-- A region either refuses and stays as it is, or counts the new blocks. -/
theorem bmAlloc_counts
    (mem : Memory)
    (inSpace : b.InSpace)
    (positive : 0 < size)
    (small : size ≤ pageSize) :
    bmAlloc mem size b = (0, mem, b) ∨
      (bmAlloc mem size b).1 ≠ 0 ∧ (bmAlloc mem size b).2.2.InSpace ∧
        ∃ count, 0 < count ∧ count ≤ size ∧
          (bmAlloc mem size b).2.2.used = wrap (b.used + count) := by
  obtain refused | ⟨i, found, eq⟩ := bmAlloc_cases mem size b
  · exact Or.inl refused
  · have inside : i < b.tblocks := found.fits.1.1
    have bounds := divCeil_bounds inSpace (by omega) positive small
    rw [eq]
    refine Or.inr ⟨?_, inSpace, _, bounds.1, bounds.2, rfl⟩
    have offset : i * b.bsize ≤ b.size :=
      le_trans (Nat.mul_le_mul_right _ inside.le) (Nat.div_mul_le_self _ _)
    have above := inSpace.1
    have below := inSpace.2
    rw [wrap_of_lt (by omega)]
    simp only [pageSize] at above
    omega

/-- `halloc` that returns a block counts it. -/
theorem halloc_counts
    (inSpace : ∀ b ∈ chain, b.InSpace)
    (positive : 0 < size)
    (small : size ≤ pageSize)
    (taken : (halloc size mem chain).1 ≠ 0) :
    (∀ b ∈ (halloc size mem chain).2.2, b.InSpace) ∧
      ∃ count, 0 < count ∧ count ≤ size ∧
        usedTotal (halloc size mem chain).2.2 ≡ usedTotal chain + count
          [MOD 2 ^ 64] := by
  induction chain generalizing mem with
  | nil => exact absurd rfl taken
  | cons b rest inductionHypothesis =>
      obtain ⟨bSpace, restSpace⟩ := List.forall_mem_cons.mp inSpace
      rw [halloc] at taken ⊢
      cases bmAlloc_counts mem bSpace positive small with
      | inl refused =>
          simp only [refused, ne_eq, not_true, if_false] at taken ⊢
          obtain ⟨space, count, some_blocks, few, total⟩ :=
            inductionHypothesis restSpace taken
          refine ⟨List.forall_mem_cons.mpr ⟨bSpace, space⟩, count, some_blocks,
            few, ?_⟩
          simp only [usedTotal, List.map_cons, List.sum_cons, Nat.add_assoc]
            at total ⊢
          exact total.add_left b.used
      | inr counted =>
          obtain ⟨notNull, space, count, some_blocks, few, used_eq⟩ := counted
          simp only [if_pos notNull]
          refine ⟨List.forall_mem_cons.mpr ⟨space, restSpace⟩, count,
            some_blocks, few, ?_⟩
          simp only [usedTotal, List.map_cons, List.sum_cons, used_eq]
          rw [Nat.add_right_comm]
          exact (Nat.mod_modEq (b.used + count) _).add_right _

end Bitmap

/-! ## Threads that come and go -/

namespace Kernel

/-- After `free_thread` the kernel has what it had before `create_thread`, and
no frame was given back twice. -/
structure Conserves (before after : Kernel) (released : List Word) : Prop where
  /-- The same frames are marked. -/
  frames : ∀ k, after.machine.pmm.Used k ↔ before.machine.pmm.Used k
  /-- The same blocks of the heap are taken. -/
  blocks : after.heap.map (Bitmap.takenBlocks after.mem) =
    before.heap.map (Bitmap.takenBlocks before.mem)
  /-- The regions count the same blocks. -/
  used : after.heap.map Bitmap.used = before.heap.map Bitmap.used
  /-- No frame is given back twice. -/
  once : ((released.filter (· ≠ 0#64)).map frameOf).Nodup

/-- `free_thread` returns and leaves the kernel as it was before the thread. -/
def GivesBack (before created : Kernel) (seen : Memory) (thread : ThreadT) :
    Prop :=
  ∃ fuel released after,
    freeThread fuel seen thread created = some (released, after) ∧
      Conserves before after released

theorem freeThread_heap
    {fuel : Nat} {seen : Memory} {thread : ThreadT} {k last : Kernel}
    {released : List Word}
    (ran : freeThread fuel seen thread k = some (released, last)) :
    last.heap = k.heap := by
  obtain ⟨rest, -, result⟩ := Option.map_eq_some_iff.mp ran
  rw [← (Prod.mk.inj result).2]

/-- `create_thread` and `free_thread` leave two more structures in the heap of
the kernel. -/
theorem never_givesBack
    (info : KernelInfo) (threadWrapper : Word) (window seen : Memory)
    (vmm : Vmm) (stale : CpuStatus) (name : ThreadName) (entryPoint : Word)
    (safety : Bool) (k created : Kernel) (address : Nat) (thread : ThreadT)
    (inSpace : ∀ b ∈ k.heap, b.InSpace)
    (returned : createThread info threadWrapper window vmm stale name entryPoint
      safety k = some (address, thread, created)) :
    ¬ GivesBack k created seen thread := by
  rintro ⟨fuel, released, after, freed, conserves⟩
  rw [createThread] at returned
  split at returned
  · simp at returned
  · rename_i notNull
    obtain ⟨structNotNull, efNotNull⟩ := not_or.mp notNull
    obtain ⟨made, -, result⟩ := Option.map_eq_some_iff.mp returned
    have created_eq := (Prod.mk.inj (Prod.mk.inj result).2).2
    obtain ⟨space, first, some_first, few_first, total_first⟩ :=
      Bitmap.halloc_counts inSpace (by decide) (by decide) structNotNull
    obtain ⟨-, second, -, few_second, total_second⟩ :=
      Bitmap.halloc_counts space (by decide) (by decide) efNotNull
    -- Both structures were counted, and 320 blocks at most do not wrap.
    have same : Bitmap.usedTotal created.heap = Bitmap.usedTotal k.heap := by
      rw [Bitmap.usedTotal, Bitmap.usedTotal, ← freeThread_heap freed,
        conserves.used]
    rw [← created_eq] at same
    have total := total_second.trans (total_first.add_right second)
    rw [same] at total
    simp only [threadSize, cpuStatusSize] at few_first few_second
    rw [Nat.ModEq] at total
    omega

/-- The name of the idle thread. -/
def idleName : ThreadName where
  text := [0x69#8, 0x64#8, 0x6C#8, 0x65#8]
  nonzero := by decide
  fits := by decide

/-- The kernel after `heap_add`, with the frames above 64 free. -/
def sampleKernel : Kernel where
  machine := kernelMachine highRows
  mem := fun address => if address = 0xFFFF800000001030 then 0x55#8 else 0#8
  heap := [⟨4048, 16, 4, 4, 0xFFFF800000001030⟩]

theorem sampleKernel_inSpace : ∀ b ∈ sampleKernel.heap, b.InSpace := by
  intro b member
  obtain rfl := List.mem_singleton.mp member
  simp only [Bitmap.InSpace, pageSize]
  decide

/-- `create_thread("idle", idle, false)` in it. -/
def sampleThread : Option (Nat × ThreadT × Kernel) :=
  createThread (sampleInfo 0x2000#64) 0xFFFFFFFF80100100#64 (fun _ => 0#8)
    blankVmm zeroStatus idleName 0xFFFFFFFF80100200#64 false sampleKernel

theorem sampleThread_made :
    ∃ address thread created, sampleThread = some (address, thread, created) ∧
      created.machine.nulls = sampleKernel.machine.nulls ∧
      thread.stack ≠ 0 ∧ created.heap.map Bitmap.used = [24] := by
  have observed : sampleThread.map (fun result =>
      (result.2.2.machine.nulls, result.2.1.stack,
        result.2.2.heap.map Bitmap.used)) =
      some (sampleKernel.machine.nulls, 0x3000, [24]) := by decide +kernel
  obtain ⟨⟨address, thread, created⟩, made, same⟩ :=
    Option.map_eq_some_iff.mp observed
  simp only [Prod.mk.injEq] at same
  refine ⟨address, thread, created, made, same.1, ?_, same.2.2⟩
  rw [same.2.1]
  decide

theorem never_givesBack_sample :
    ∃ address thread created, sampleThread = some (address, thread, created) ∧
      ∀ seen, ¬ GivesBack sampleKernel created seen thread := by
  obtain ⟨address, thread, created, made, -⟩ := sampleThread_made
  refine ⟨address, thread, created, made, ?_⟩
  intro seen
  exact never_givesBack _ _ _ seen _ _ _ _ _ sampleKernel created address thread
    sampleKernel_inSpace made

/-- The heap of the kernel has 4 used blocks before the thread, and 24 when
the thread has come and gone. -/
theorem thread_structs_stay :
    ¬ ∀ (info : KernelInfo) (threadWrapper : Word) (window seen : Memory)
      (vmm : Vmm) (stale : CpuStatus) (name : ThreadName) (entryPoint : Word)
      (safety : Bool) (k created : Kernel) (address : Nat) (thread : ThreadT),
      (∀ b ∈ k.heap, b.InSpace) →
      createThread info threadWrapper window vmm stale name entryPoint safety k =
        some (address, thread, created) →
      created.machine.nulls = k.machine.nulls → thread.stack ≠ 0 →
        GivesBack k created seen thread := by
  intro always
  obtain ⟨address, thread, created, made, enough, stack, used⟩ :=
    sampleThread_made
  obtain ⟨fuel, released, after, freed, conserves⟩ :=
    always _ _ _ (fun _ => 0#8) _ _ _ _ _ sampleKernel created address thread
      sampleKernel_inSpace made enough stack
  have same := conserves.used
  rw [freeThread_heap freed, used] at same
  exact absurd same (by decide)

end Kernel
end PivotOs
