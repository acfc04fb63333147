import PivotOs.Thread.Rounds

/-!
# The window of a thread and its tables

The tables of a thread lie in the lowest free frames, at their own addresses,
and the window of the thread lies in the pages 1 to 32.  The two meet as soon
as one of the frames 1 to 32 is free: the lowest of them is the root, and there
are bytes of the bitmap's frame for which the heap is mapped over it.
-/

namespace PivotOs

open Paging Bitmap

/-- When `init_thread_vmm` returns without a failure of `alloc_frame`, every
table of the thread translates to itself. -/
def KeepsSelfMap (info : KernelInfo) (s : Machine) : Prop :=
  ∀ mem vmm thread last,
    initThreadVmm info mem vmm s = some (thread, last) →
    last.machine.nulls = s.nulls →
      ∀ table, last.machine.IsTable last.vi.p4Tbl table →
        last.machine.translateAddr table last.vi.p4Tbl = table

namespace Machine

variable {s prepared final : Machine} {root : Word} {info : KernelInfo}
variable {mem : Memory} {heap stack : Nat}

/-- When none of the frames 1 to 32 is free, no round meets a table. -/
theorem Ran.selfMapped
    (ran : Ran info s mem root prepared heap stack final)
    (layout : info.Layout)
    (marks : s.pmm.Marks)
    (none : ∀ k, 1 ≤ k → k ≤ 32 → ¬ s.pmm.Free k) :
    SelfMapped PointsTo root final := by
  have spared : ∀ {page}, page ≤ 32 → pageOf (windowPage page) = 0 ∨
      ¬ s.pmm.Free (pageOf (windowPage page)) := by
    intro page le
    rw [pageOf_windowPage le]
    rcases Nat.eq_zero_or_pos page with null | positive
    · exact Or.inl null
    · exact Or.inr (none page positive le)
  obtain ⟨s1, s2, stages⟩ := ran.stages layout marks
  have mapped1 := stages.ready.settled.selfMapped
    stages.ready.selfMapped_loadCr3 (spared (by decide)) stages.first
    stages.enough1
  have mapped2 := stages.settled1.selfMapped mapped1
    (spared ran.pages.heap_le) stages.second stages.enough2
  exact stages.settled2.selfMapped mapped2 (spared ran.pages.stack_le)
    stages.third stages.enough3

/-- When the root's frame is that of the bitmap or of the heap, the root is
replaced. -/
theorem Ran.replaced
    (ran : Ran info s mem root prepared heap stack final)
    (layout : info.Layout)
    (marks : s.pmm.Marks)
    (meets : frameOf root = 1 ∨ frameOf root = heap) :
    Replaced root final := by
  have two_le := ran.pages.two_le_heap
  have heap_lt := ran.pages.heap_lt_stack
  have page1 := pageOf_windowPage (show 1 ≤ 32 by decide)
  have heapPage := pageOf_windowPage ran.pages.heap_le
  have stackPage := pageOf_windowPage ran.pages.stack_le
  obtain ⟨s1, s2, stages⟩ := ran.stages layout marks
  have rootPage := stages.ready.fresh.pageOf_eq
  refine stages.settled2.still_replaced ?_ (by omega) stages.third
    stages.enough3
  rcases meets with bitmap | heapFrame
  · refine stages.settled1.still_replaced ?_ (by omega) stages.second
      stages.enough2
    exact stages.ready.settled.replaced (by omega)
      (windowPage_ne_zero (by decide) (by decide)) stages.first stages.enough1
  · exact stages.settled1.replaced (by omega)
      (windowPage_ne_zero (by omega) ran.pages.heap_le) stages.second
      stages.enough2

end Machine

/-- The tables of a new thread all translate to themselves, whatever the bytes
of its window, exactly when none of the frames 1 to 32 was free. -/
theorem keepsSelfMap_iff
    (info : KernelInfo) (s : Machine)
    (layout : info.Layout)
    (marks : s.pmm.Marks)
    (completes : Completes info s) :
    KeepsSelfMap info s ↔ ∀ k, 1 ≤ k → k ≤ 32 → ¬ s.pmm.Free k := by
  constructor
  · intro keeps k positive le free
    obtain ⟨mem, vmm, thread, last, result, enough⟩ := completes
    obtain ⟨prepared, heap, stack, final, ran, -⟩ :=
      initThreadVmm_cases result enough
    obtain ⟨-, mem, heap, stack, final, ran, meets⟩ :=
      ran.meets layout marks le free
    obtain ⟨s1, s2, stages⟩ := ran.stages layout marks
    obtain ⟨thread, other, result, machine_eq, root_eq⟩ :=
      ran.initThreadVmm vmm
    have replaced := ran.replaced layout marks (meets.imp_right And.left)
    have kept := keeps mem vmm thread other result
      (by rw [machine_eq]; exact ran.enough) last.vi.p4Tbl
    rw [root_eq, machine_eq] at kept
    exact replaced.translateAddr_ne stages.ready.fresh.ne_zero
      (kept (Machine.isTable_root _ _))
  · intro none mem vmm thread last result enough table isTable
    obtain ⟨prepared, heap, stack, final, ran, machine_eq⟩ :=
      initThreadVmm_cases result enough
    have mapped := ran.selfMapped layout marks none
    rw [machine_eq] at isTable ⊢
    rw [Machine.translateAddr_eq _ mapped.tree.root_ne_zero]
    exact next_eq_some (mapped.self table isTable)

/-! ## A small machine -/

/-- The kernel's image, stack, heap and devices of a small machine. -/
def sampleInfo (bitmap : Word) : KernelInfo where
  ke := [⟨0xFFFFFFFF80100000#64, 0x100000#64, 1⟩]
  bitmap := bitmap
  bitmapSize := 1
  buffer := 0xFD000000#64
  bpp := 4#8
  pixelsPerScanline := 640#32
  verticalRes := 2#32
  lapic := 0xFEE00000#64
  x2mode := false
  stack := 0x28000#64
  heap := [⟨4048, 16, 4, 4, 0xFFFF800000001030⟩]

theorem sampleInfo_pmmPages (bitmap : Word) :
    (sampleInfo bitmap).pmmPages = 1 := by
  simp only [KernelInfo.pmmPages, sampleInfo]
  decide

theorem sampleInfo_identity
    {bitmap address : Word}
    (device : (sampleInfo bitmap).IdentityAddress address) :
    address ∈ [0xFD000000#64, 0xFD001000#64, 0xFEE00000#64, bitmap] := by
  have buffer : (sampleInfo bitmap).bufferPages = 2 := by
    simp only [KernelInfo.bufferPages, sampleInfo]
    decide
  rcases device with ⟨i, below, rfl⟩ | ⟨-, rfl⟩ | ⟨i, below, rfl⟩
  · rw [buffer] at below
    obtain rfl | rfl : i = 0 ∨ i = 1 := by omega
    · simp [sampleInfo, Pmm.pageAddress]
    · simp [sampleInfo, Pmm.pageAddress, pageSize]
  · simp [sampleInfo]
  · rw [sampleInfo_pmmPages] at below
    obtain rfl : i = 0 := by omega
    simp [sampleInfo, Pmm.pageAddress]

theorem sampleInfo_layout
    {bitmap : Word}
    (low : bitmap.toNat < 2 ^ 47) :
    (sampleInfo bitmap).Layout where
  entries := by
    intro entry member i below
    obtain rfl := List.mem_singleton.mp member
    obtain rfl : i = 0 := Nat.lt_one_iff.mp below
    decide
  heap := by
    intro b member i below
    obtain rfl := List.mem_singleton.mp member
    obtain rfl : i = 0 := Nat.lt_one_iff.mp below
    decide
  devices := by
    intro address device
    have cases := sampleInfo_identity device
    simp only [List.mem_cons, List.not_mem_nil, or_false] at cases
    rcases cases with rfl | rfl | rfl | rfl
    · exact Or.inl (by decide)
    · exact Or.inl (by decide)
    · exact Or.inl (by decide)
    · exact Or.inl low

/-- A kernel whose root is frame 1 and whose heap is frame 41, with its other
tables in the frames from 42 on, and these rows of the frame bitmap. -/
def kernelMachine (rows : Nat → Word) : Machine :=
  let loading : Machine :=
    { Machine.sampleMachine with
      pmm :=
        { bitmap := fun _ => 0x3FFFFFFFFFF#64
          bitmapEntries := 1
          memPages := 64 } }
  { (Machine.mapAddr 0x29000#64 0xFFFF800000001000#64 kernelPtEntry 0x1000#64
      loading).getD loading with
    pmm :=
      { bitmap := rows
        bitmapEntries := 16
        memPages := 1024 } }

theorem kernelMachine_marks (rows : Nat → Word) :
    (kernelMachine rows).pmm.Marks := by
  rintro k ⟨row, -⟩
  change k / 64 < 16 at row
  change k ≤ 1024
  omega

/-- The record in a new `thread_t`. -/
def blankVmm : Vmm where
  flags := 0#64
  p4Tbl := 0#64
  bm := { size := 0, bsize := 0, used := 0, ffa := 0, bm := 0 }

/-- In every row, the frames from 3 to 39 are free. -/
def lowRows (_ : Nat) : Word := 0xFFFFFF0000000007#64

/-- As before, but the first 64 frames are in use. -/
def highRows (row : Nat) : Word :=
  if row = 0 then Pmm.bitmapRowFull else lowRows row

theorem highRows_completes :
    Completes (sampleInfo 0x2000#64) (kernelMachine highRows) := by
  have ran : (initThreadVmm (sampleInfo 0x2000#64) (fun _ => 0#8) blankVmm
      (kernelMachine highRows)).map (fun result =>
        result.2.machine.nulls) = some (kernelMachine highRows).nulls := by
    decide +kernel
  obtain ⟨⟨thread, last⟩, result, enough⟩ := Option.map_eq_some_iff.mp ran
  exact ⟨_, _, thread, last, result, enough⟩

theorem keepsSelfMap_iff_sample :
    Completes (sampleInfo 0x2000#64) (kernelMachine highRows) ∧
      KeepsSelfMap (sampleInfo 0x2000#64) (kernelMachine highRows) := by
  refine ⟨highRows_completes, ?_⟩
  apply (keepsSelfMap_iff _ (kernelMachine highRows)
    (sampleInfo_layout (by decide)) (kernelMachine_marks _)
    highRows_completes).mpr
  have none : ∀ k, k < 33 → ¬ (kernelMachine highRows).pmm.Free k := by
    decide +kernel
  intro k _ le
  exact none k (Nat.lt_succ_of_le le)

/-- With the lowest free frame 3 and cleared memory, the root of the thread is
frame 3 and its stack gets page 3. -/
theorem stack_replaces_root :
    ¬ ∀ (info : KernelInfo) (s : Machine), info.Layout → s.pmm.Marks →
      Completes info s → KeepsSelfMap info s := by
  intro claim
  have ran : (initThreadVmm (sampleInfo 0x2000#64) (fun _ => 0#8) blankVmm
      (kernelMachine lowRows)).map (fun result =>
        (result.2.machine.nulls, result.2.vi.p4Tbl, result.1.stack,
          result.2.machine.translateAddr 0x3000#64 0x3000#64)) =
      some ((kernelMachine lowRows).nulls, 0x3000#64, 0x3000, 0x12000#64) := by
    decide +kernel
  obtain ⟨⟨thread, last⟩, result, observed⟩ := Option.map_eq_some_iff.mp ran
  simp only [Prod.mk.injEq] at observed
  obtain ⟨enough, root, -, moved⟩ := observed
  have kept := claim _ (kernelMachine lowRows)
    (sampleInfo_layout (by decide)) (kernelMachine_marks _)
    ⟨_, _, thread, last, result, enough⟩ _ _ thread last result enough
    0x3000#64
  rw [root, moved] at kept
  exact absurd (kept (Machine.isTable_root _ _)) (by decide)

end PivotOs
