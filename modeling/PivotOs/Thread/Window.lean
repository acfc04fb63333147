import PivotOs.Thread.Prepare
import PivotOs.Paging.Accesses
import PivotOs.Vmm.Frames
import PivotOs.Bitmap.Exclusive

/-!
# The window of a thread

After the switch, `init_thread_vmm` takes three frames.  The first goes to the
page of the window's bitmap, the others to the pages that the bitmap hands out
for the heap and the stack.  Which pages these are depends only on the bytes
that the frame of the bitmap happened to hold: `init_bitmap` sets ids and
clears none.
-/

namespace PivotOs

open Paging Bitmap

/-- The window that `init_vmm` sets up for a thread. -/
def userWindow : Region where
  base := pageSize
  size := 32 * pageSize
  bsize := pageSize
  bsize_pos := pageSize_pos
  above_null := le_rfl
  fits := by decide

namespace Window

/-- The window's bitmap after `init_vmm`. -/
def opened (mem : Memory) : Pool := Pool.init userWindow mem

/-- The block that `heap_add` asks for. -/
def heapBlock (mem : Memory) : Nat × Memory × Bitmap :=
  bmAlloc (opened mem).mem pageSize (opened mem).record

/-- The address of the heap. -/
def heapAddress (mem : Memory) : Nat := (heapBlock mem).1

/-- The bytes after `heap_add` has initialised the heap's own bitmap. -/
def heapMemory (mem : Memory) : Memory :=
  (initBitmap (heapBlock mem).2.1
    { size := 0, bsize := 0, used := 0, ffa := 0
      bm := wrap (heapAddress mem + heapHeader) }
    (wrapSub (wrap (1 * pageSize)) heapHeader) heapDefaultBs).1

/-- The address of the stack. -/
def stackAddress (mem : Memory) : Nat :=
  (bmAlloc (heapMemory mem) pageSize (heapBlock mem).2.2).1

/-- The heap gets a page of the window behind its bitmap. -/
theorem heapBlock_cases (mem : Memory) :
    heapAddress mem = 0 ∨
      ∃ block, heapAddress mem = pageSize + block * pageSize ∧
        Pool.Fresh userWindow (opened mem) pageSize block (heapBlock mem).2.1
          (heapBlock mem).2.2 := by
  rcases (Pool.init_inv userWindow mem).bmAlloc_cases pageSize with
    null | ⟨block, after, record, eq, fresh⟩
  · exact Or.inl (congrArg Prod.fst null)
  · have answer : heapBlock mem = (pageSize + block * pageSize, after, record) :=
      eq
    rw [heapAddress, answer]
    exact Or.inr ⟨block, rfl, fresh⟩

theorem heapMemory_eq (mem : Memory) :
    heapMemory mem = setRun (heapBlock mem).2.1
      (wrap (heapAddress mem + heapHeader)) 0 1#8 4 := by
  rw [heapMemory, initBitmap]
  simp only [setRun_zero]
  rw [show bmBlocks (wrapSub (wrap (1 * pageSize)) heapHeader)
    heapDefaultBs = 4 by decide]

/-- The heap's own bitmap lies behind that of the window. -/
theorem heapMemory_agrees
    {mem : Memory} {block : Nat}
    (heap : heapAddress mem = pageSize + block * pageSize)
    (positive : 1 ≤ block)
    (below : block < 32)
    {address : Nat}
    (first : address < pageSize + pageSize) :
    heapMemory mem address = (heapBlock mem).2.1 address := by
  unfold pageSize at *
  have place : wrap (heapAddress mem + heapHeader) =
      4096 + block * 4096 + 48 := by
    rw [heap, heapHeader, wrap_of_lt (by omega)]
  rw [heapMemory_eq, place]
  exact setRun_apply_of_outside _ _ (by omega) (by omega)

theorem heapMemory_keeps
    {mem : Memory} {block : Nat}
    (heap : heapAddress mem = pageSize + block * pageSize)
    (fresh : Pool.Fresh userWindow (opened mem) pageSize block
      (heapBlock mem).2.1 (heapBlock mem).2.2) :
    Pool.KeepsUsed userWindow (heapBlock mem).2.1 (heapMemory mem) := by
  have inv := Pool.init_inv userWindow mem
  apply Pool.KeepsUsed.of_agree
  intro address _ first
  exact heapMemory_agrees heap (fresh.reserved_le inv) (fresh.inside inv) first

/-- The window's bitmap before the stack is allocated. -/
def stackPool (mem : Memory) : Pool where
  mem := heapMemory mem
  record := (heapBlock mem).2.2
  live := [⟨heapAddress mem, pageSize⟩]

theorem stackPool_inv
    {mem : Memory} {block : Nat}
    (heap : heapAddress mem = pageSize + block * pageSize)
    (fresh : Pool.Fresh userWindow (opened mem) pageSize block
      (heapBlock mem).2.1 (heapBlock mem).2.2) :
    Pool.Inv userWindow (stackPool mem) := by
  have inv := Pool.init_inv userWindow mem
  rw [stackPool, heap]
  exact inv.of_fresh fresh (heapMemory_keeps heap fresh) rfl rfl rfl le_rfl
    (List.nil_sublist _)

/-- A first fit of one block leaves no free block before it, so the next one
is behind it. -/
theorem stackAddress_cases
    {mem : Memory} {block : Nat}
    (heap : heapAddress mem = pageSize + block * pageSize)
    (fresh : Pool.Fresh userWindow (opened mem) pageSize block
      (heapBlock mem).2.1 (heapBlock mem).2.2) :
    stackAddress mem = 0 ∨
      ∃ other, stackAddress mem = pageSize + other * pageSize ∧
        block < other ∧ other < 32 := by
  have inv := Pool.init_inv userWindow mem
  have after := stackPool_inv heap fresh
  have below : block < 32 := fresh.inside inv
  have one : divCeil pageSize userWindow.bsize = 1 := by decide
  rcases after.bmAlloc_cases pageSize with
    null | ⟨other, memory, record, eq, stack⟩
  · exact Or.inl (congrArg Prod.fst null)
  · refine Or.inr ⟨other, congrArg Prod.fst eq, ?_, stack.inside after⟩
    by_contra early
    have free := stack.free after
    refine heapMemory_keeps heap fresh other (by change other < 32; omega) ?_
      free
    rcases Nat.lt_or_eq_of_le (Nat.le_of_not_lt early) with before | rfl
    · apply fresh.keeps other (by change other < 32; omega)
      intro old
      refine fresh.not_fits_before inv before ?_ old
      intro offset first
      obtain rfl : offset = 0 := by omega
      exact ⟨by change other < 32; omega, old⟩
    · exact fresh.used 0 (by rw [one]; decide)

/-- The pages of the heap and of the stack, where 0 stands for no page. -/
structure Pages (mem : Memory) (heap stack : Nat) : Prop where
  heap_eq : heapAddress mem = heap * pageSize
  stack_eq : stackAddress mem = stack * pageSize
  /-- Page 1 holds the bitmap. -/
  two_le_heap : 2 ≤ heap
  heap_le : heap ≤ 32
  stack_le : stack ≤ 32
  /-- The stack lies behind the heap. -/
  heap_lt_stack : stack = 0 ∨ heap < stack

theorem pages
    {mem : Memory}
    (mapped : ¬ heapAddress mem < pageSize) :
    ∃ heap stack, Pages mem heap stack := by
  rcases heapBlock_cases mem with null | ⟨block, heap, fresh⟩
  · rw [null] at mapped
    exact absurd (by decide) mapped
  · have inv := Pool.init_inv userWindow mem
    have positive : 1 ≤ block := fresh.reserved_le inv
    have below : block < 32 := fresh.inside inv
    have heapPage : heapAddress mem = (block + 1) * pageSize := by
      rw [heap, Nat.succ_mul, Nat.add_comm]
    rcases stackAddress_cases heap fresh with none | ⟨other, stack, behind, last⟩
    · exact ⟨block + 1, 0, heapPage, by omega, by omega, by omega, by omega,
        Or.inl rfl⟩
    · have stackPage : stackAddress mem = (other + 1) * pageSize := by
        rw [stack, Nat.succ_mul, Nat.add_comm]
      exact ⟨block + 1, other + 1, heapPage, stackPage, by omega, by omega,
        by omega, Or.inr (by omega)⟩

/-- Bytes that make the blocks before a page look used. -/
def crowded (page : Nat) : Memory :=
  setRun (fun _ => 0#8) pageSize 0 1#8 (page - 1)

theorem heapBlock_eq (mem : Memory) :
    heapBlock mem = bmAlloc (setRun mem pageSize 0 1#8 1) pageSize
      ⟨32 * pageSize, pageSize, 1, 1, pageSize⟩ := by
  change bmAlloc (setRun (setRun mem pageSize 0 0#8 32) pageSize 0 1#8 1)
    pageSize _ = _
  rw [setRun_zero]
  rfl

theorem heapAddress_crowded :
    ∀ page, page < 33 → 2 ≤ page →
      heapAddress (crowded page) = page * pageSize := by
  simp only [heapAddress, heapBlock_eq]
  decide +kernel

/-- The stack gets the next page, if there is one. -/
theorem stackAddress_crowded
    {page : Nat}
    (below : page < 32)
    (above : 2 ≤ page) :
    stackAddress (crowded page) = (page + 1) * pageSize := by
  rw [stackAddress, heapMemory_eq, heapAddress_crowded page (by omega) above,
    heapBlock_eq]
  revert page
  decide +kernel

end Window

namespace Machine

variable {s next last : Machine} {root : Word}

/-- Map a new frame at a page of the window. -/
def mapFrame (virtual root : Word) (s : Machine) : Option Machine :=
  s.allocFrame.bind fun result =>
    mapAddr result.1 virtual userPtEntry root result.2

theorem mapFrames_one (start root : Word) (s : Machine) :
    mapFrames start userPtEntry root 1 s = mapFrame start root s := by
  rw [mapFrames, mapFrames, Option.bind_some, Pmm.pageAddress]
  simp [mapFrame]

/-- The three rounds of `populate`. -/
def rounds (heap stack : Nat) (root : Word) (s : Machine) : Option Machine :=
  (mapFrame (BitVec.ofNat 64 pageSize) root s).bind fun s =>
  (mapFrame (BitVec.ofNat 64 heap) root s).bind fun s =>
  if heap < pageSize then none
  else mapFrame (BitVec.ofNat 64 stack) root s

end Machine

namespace Space

/-- The thread's space after `init_vmm`. -/
def opened (mem : Memory) (p4Tbl : Word) (machine : Machine) : Space where
  machine := machine
  mem := (Window.opened mem).mem
  vi :=
    { flags := userPtEntry
      p4Tbl := p4Tbl
      bm := (Window.opened mem).record }

/-- The thread's space after `heap_add`. -/
def heaped (mem : Memory) (p4Tbl : Word) (machine : Machine) : Space where
  machine := machine
  mem := Window.heapMemory mem
  vi :=
    { flags := userPtEntry
      p4Tbl := p4Tbl
      bm := (Window.heapBlock mem).2.2 }

theorem initVmm_user (s : Space) :
    s.initVmm .user 32 =
      (Machine.mapFrame (BitVec.ofNat 64 pageSize) s.vi.p4Tbl s.machine).map
        (opened s.mem s.vi.p4Tbl) := by
  rw [initVmm, show divCeil 32 pageSize = 1 by decide]
  change (Machine.mapFrames _ userPtEntry _ 1 _).map _ = _
  rw [Machine.mapFrames_one]
  rfl

theorem valloc_one (s : Space) (flags : s.vi.flags = userPtEntry) :
    s.valloc 1 =
      (Machine.mapFrame
          (BitVec.ofNat 64 (bmAlloc s.mem pageSize s.vi.bm).1) s.vi.p4Tbl
          s.machine).map fun machine =>
        ((bmAlloc s.mem pageSize s.vi.bm).1,
          { machine := machine
            mem := (bmAlloc s.mem pageSize s.vi.bm).2.1
            vi := { s.vi with
              bm := (bmAlloc s.mem pageSize s.vi.bm).2.2 } }) := by
  rw [valloc, if_neg (by decide), show wrap (1 * pageSize) = pageSize by decide,
    flags]
  simp only [Machine.mapFrames_one]

theorem heapAdd_opened (mem : Memory) (p4Tbl : Word) (machine : Machine) :
    ((opened mem p4Tbl machine).heapAdd 1 heapDefaultBs).map
        (fun heap => heap.2.2) =
      (Machine.mapFrame (BitVec.ofNat 64 (Window.heapAddress mem)) p4Tbl
          machine).bind fun machine =>
        if Window.heapAddress mem < pageSize then none
        else some (heaped mem p4Tbl machine) := by
  rw [heapAdd, valloc_one _ rfl]
  change Option.map _ (Option.bind (Option.map _ (Machine.mapFrame
    (BitVec.ofNat 64 (Window.heapAddress mem)) p4Tbl machine)) _) = _
  cases Machine.mapFrame (BitVec.ofNat 64 (Window.heapAddress mem)) p4Tbl
      machine with
  | none => rfl
  | some next =>
      rw [Option.map_some, Option.bind_some, Option.bind_some]
      change Option.map _ (if Window.heapAddress mem < pageSize then none
        else some _) = _
      split <;> rfl

/-- What `populate` does to the machine. -/
theorem populate_rounds (s : Space) :
    s.populate.map (fun result => (result.2.machine, result.2.vi.p4Tbl)) =
      (Machine.rounds (Window.heapAddress s.mem) (Window.stackAddress s.mem)
        s.vi.p4Tbl s.machine).map fun machine => (machine, s.vi.p4Tbl) := by
  rw [populate, initVmm_user, Machine.rounds]
  cases Machine.mapFrame (BitVec.ofNat 64 pageSize) s.vi.p4Tbl s.machine with
  | none => rfl
  | some first =>
      have split : ∀ heaps : Option (Nat × Bitmap × Space),
          Option.map (fun result : Thread × Space =>
              (result.2.machine, result.2.vi.p4Tbl))
            (heaps.bind fun heap =>
              (heap.2.2.valloc threadStackPages).map fun stack =>
                ({ heap := heap.1, heapBm := heap.2.1, stack := stack.1 },
                  stack.2)) =
          (heaps.map fun heap => heap.2.2).bind fun space =>
            (space.valloc threadStackPages).map fun stack =>
              (stack.2.machine, stack.2.vi.p4Tbl) := by
        intro heaps
        cases heaps with
        | none => rfl
        | some heap =>
            rw [Option.bind_some, Option.map_map, Option.map_some,
              Option.bind_some]
            rfl
      rw [Option.map_some, Option.bind_some, Option.bind_some, split,
        heapAdd_opened, Option.bind_assoc, Option.map_bind]
      congr 1
      funext second
      simp only [Function.comp_apply]
      split
      · rfl
      · rw [Option.bind_some, threadStackPages, valloc_one _ rfl,
          Option.map_map]
        rfl

end Space

/-- What `init_thread_vmm` does to the machine, with `prepare` left as it
is. -/
theorem initThreadVmm_rounds
    (info : KernelInfo) (mem : Memory) (vmm : Vmm) (s : Machine) :
    (initThreadVmm info mem vmm s).map
        (fun result => (result.2.machine, result.2.vi.p4Tbl)) =
      (s.prepare info).bind fun prepared =>
        (Machine.rounds (Window.heapAddress mem) (Window.stackAddress mem)
          prepared.1 (prepared.2.loadCr3 prepared.1)).map fun machine =>
            (machine.loadCr3 (paddr machine.pml4), prepared.1) := by
  rw [initThreadVmm, Option.map_bind]
  congr 1
  funext prepared
  have populated := Space.populate_rounds
    { machine := prepared.2.loadCr3 prepared.1
      mem := mem
      vi := { vmm with p4Tbl := prepared.1 } }
  have switched := congrArg (Option.map fun result : Machine × Word =>
    (result.1.loadCr3 (paddr result.1.pml4), result.2)) populated
  rw [Option.map_map, Option.map_map] at switched
  rw [Function.comp_apply, Option.map_map]
  exact switched

end PivotOs
