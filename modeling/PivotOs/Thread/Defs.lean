import PivotOs.Heap.Defs

/-!
# The address space of a thread

`init_thread_vmm` in `scheduler/thread.c` builds a page-table tree for a new
thread, switches to it, and sets up the thread's window, heap and stack from
inside it.  `KernelInfo` holds the fields of `kinfo` that are read on the way.
The construction is cut at `load_cr3`: `prepare` is what comes before it and
`populate` what comes after.
-/

namespace PivotOs

/-! ## Threads -/

/-- `thread_status_t`. -/
inductive ThreadStatus
  | new
  | init
  | run
  | ready
  | sleep
  | wait
  | dead
  deriving DecidableEq

/-- `cpu_status_t`. -/
structure CpuStatus where
  r15 : Word
  r14 : Word
  r13 : Word
  r12 : Word
  r11 : Word
  r10 : Word
  r9 : Word
  r8 : Word
  rdi : Word
  rsi : Word
  rbp : Word
  rdx : Word
  rcx : Word
  rbx : Word
  rax : Word
  intNo : Word
  errCode : Word
  rip : Word
  cs : Word
  rflags : Word
  rsp : Word
  ss : Word

/-- Registers of a block that was zero. -/
def zeroStatus : CpuStatus where
  r15 := 0#64
  r14 := 0#64
  r13 := 0#64
  r12 := 0#64
  r11 := 0#64
  r10 := 0#64
  r9 := 0#64
  r8 := 0#64
  rdi := 0#64
  rsi := 0#64
  rbp := 0#64
  rdx := 0#64
  rcx := 0#64
  rbx := 0#64
  rax := 0#64
  intNo := 0#64
  errCode := 0#64
  rip := 0#64
  cs := 0#64
  rflags := 0#64
  rsp := 0#64
  ss := 0#64

/-- `THREAD_NAME_MAX_LEN`. -/
def threadNameMaxLen : Nat := 32

/-- A C string that fits into the name of a thread, without its final zero. -/
structure ThreadName where
  /-- The bytes before the zero. -/
  text : List (BitVec 8)
  /-- The string ends with its first zero. -/
  nonzero : 0#8 ∉ text
  /-- The zero fits in as well. -/
  fits : text.length < threadNameMaxLen

/-- `thread_t`, with the `cpu_status_t` it points to. -/
structure ThreadT where
  /-- `name`. -/
  name : ThreadName
  /-- `stack`. -/
  stack : Nat
  /-- `status`. -/
  status : ThreadStatus
  /-- `ticks`. -/
  ticks : Nat
  /-- `ef`. -/
  ef : Nat
  /-- `*ef`. -/
  saved : CpuStatus
  /-- `wakeup_time`. -/
  wakeupTime : Nat
  /-- `vmm`. -/
  vmm : Vmm
  /-- `heap`. -/
  heap : Nat
  /-- `next`. -/
  next : Nat

/-! ## Its address space -/

/-- `kernel_entry_t`. -/
structure KernelEntry where
  /-- `vaddr`. -/
  vaddr : Word
  /-- `paddr`. -/
  paddr : Word
  /-- `num_pages`. -/
  numPages : Nat

/-- The fields of `kinfo` that the address space of a thread is built from. -/
structure KernelInfo where
  /-- `KMEM.ke`. -/
  ke : List KernelEntry
  /-- `KMEM.bitmap`, the address of the frame bitmap. -/
  bitmap : Word
  /-- `KMEM.bitmap_size`. -/
  bitmapSize : Nat
  /-- `KFB.buffer`. -/
  buffer : Word
  /-- `KFB.bpp`. -/
  bpp : BitVec 8
  /-- `KFB.pixels_per_scanline`. -/
  pixelsPerScanline : BitVec 32
  /-- `KFB.vertical_res`. -/
  verticalRes : BitVec 32
  /-- `KLAPIC.addr`. -/
  lapic : Word
  /-- `KLAPIC.x2mode`. -/
  x2mode : Bool
  /-- `KCPUS[CPU].stack`. -/
  stack : Word
  /-- The records of the regions of `KHEAP`, in the order of the chain. -/
  heap : List Bitmap

namespace KernelInfo

/-- `SIZE_TO_PAGES` of the framebuffer's size, which is computed in 32 bits. -/
def bufferPages (info : KernelInfo) : Nat :=
  let fbSize : BitVec 32 :=
    info.bpp.setWidth 32 * info.pixelsPerScanline * info.verticalRes
  divCeil fbSize.toNat pageSize

/-- Number of pages that `map_pmm` maps. -/
def pmmPages (info : KernelInfo) : Nat := divCeil info.bitmapSize pageSize

end KernelInfo

/-- `THREAD_STACK_PAGES`. -/
def threadStackPages : Nat := 1

namespace Machine

/-- `map_kernel_entries`. -/
def mapKernelEntries (p4Tbl : Word) :
    List KernelEntry → Machine → Option Machine
  | [], s => some s
  | entry :: entries, s =>
      (mapRange entry.paddr entry.vaddr userPtEntry p4Tbl entry.numPages
        s).bind (mapKernelEntries p4Tbl entries)

/-- `map_framebuffer`. -/
def mapFramebuffer (info : KernelInfo) (p4Tbl flags : Word) (s : Machine) :
    Option Machine :=
  (mapRange info.buffer info.buffer flags p4Tbl info.bufferPages s).map
    fun s =>
      { s with pmm := s.pmm.pmmSetArea info.buffer info.bufferPages }

/-- `map_lapic`. -/
def mapLapic (info : KernelInfo) (pml4 : Word) (s : Machine) :
    Option Machine :=
  if info.x2mode then some s
  else mapAddr info.lapic info.lapic (kernelPtEntry ||| 1#64 <<< 4) pml4 s

/-- `map_pmm`. -/
def mapPmm (info : KernelInfo) (table : Word) (s : Machine) :
    Option Machine :=
  mapRange info.bitmap info.bitmap kernelPtEntry table info.pmmPages s

/-- The mappings that `init_thread_vmm` makes before `load_cr3`. -/
def mapThread (info : KernelInfo) (p4Tbl : Word) (s : Machine) :
    Option Machine :=
  (mapAddr p4Tbl p4Tbl kernelPtEntry p4Tbl s).bind fun s =>
  (mapAddr info.stack (vaddr info.stack) kernelPtEntry p4Tbl s).bind fun s =>
  (mapKernelEntries p4Tbl info.ke s).bind fun s =>
  (mapFramebuffer info p4Tbl userPtEntry s).bind fun s =>
  (mapLapic info p4Tbl s).bind fun s =>
  (mapHeap s.pml4 p4Tbl info.heap s).bind fun s =>
  mapPmm info p4Tbl s

/-- `init_thread_vmm` up to `load_cr3`: the root and the machine. -/
def prepare (info : KernelInfo) (s : Machine) : Option (Word × Machine) :=
  s.allocFrame.bind fun result =>
    (mapThread info result.1 (result.2.cleanTable result.1)).map fun s =>
      (result.1, s)

end Machine

/-- The fields of `thread_t` that `init_thread_vmm` sets, besides `vmm`. -/
structure Thread where
  /-- `heap`. -/
  heap : Nat
  /-- `heap->bm`. -/
  heapBm : Bitmap
  /-- `stack`. -/
  stack : Nat

namespace Space

/-- `init_thread_vmm` between the two calls of `load_cr3`. -/
def populate (s : Space) : Option (Thread × Space) :=
  (s.initVmm .user 32).bind fun s =>
  (s.heapAdd 1 heapDefaultBs).bind fun heap =>
  (heap.2.2.valloc threadStackPages).map fun stack =>
    ({ heap := heap.1, heapBm := heap.2.1, stack := stack.1 }, stack.2)

end Space

/-- `init_thread_vmm`.  `mem` are the bytes that the frames of the window will
hold, and `vmm` is the record in the uninitialised `thread_t`. -/
def initThreadVmm (info : KernelInfo) (mem : Memory) (vmm : Vmm)
    (s : Machine) : Option (Thread × Space) :=
  (s.prepare info).bind fun prepared =>
  (Space.populate
      { machine := prepared.2.loadCr3 prepared.1
        mem := mem
        vi := { vmm with p4Tbl := prepared.1 } }).map fun result =>
    (result.1,
      { result.2 with
        machine := result.2.machine.loadCr3 (paddr result.2.machine.pml4) })

end PivotOs
