import PivotOs.Logging
import PivotOs.Vmm.Defs

/-!
# Heaps

`mem/heap.c` puts block bitmaps into ranges of a VMM and chains them: a
`heap_t` lies at the start of its range and the bitmap behind it.  A chain is
the list of the bitmap records, first region first.  `halloc` asks one region
after another.  `hfree` and `hrealloc` go through the chain as well, but in
every round they ask the first region.
-/

namespace PivotOs

/-- `sizeof(heap_t)`. -/
def heapHeader : Nat := 48

/-- `HEAP_DEFAULT_BS`. -/
def heapDefaultBs : Nat := 16

/-! ## Messages -/

/-- What `hfree` and `hrealloc` say when no region took the pointer. -/
def unknownPointer : LogLine where
  level := .warning
  target := "HEAP"
  text := "Pointer was not from any known region"

/-! ## Chains -/

namespace Space

/-- `heap_add`: the address of the `heap_t`, its bitmap record and the state.
The `heap_t` lies at the start of the new range; page 0 is mapped nowhere, so
a null range faults and the result is `none`. -/
def heapAdd (pages bsize : Nat) (s : Space) : Option (Nat × Bitmap × Space) :=
  (s.valloc pages).bind fun result =>
    if result.1 < pageSize then none
    else
      let fresh := Bitmap.initBitmap result.2.mem
        { size := 0, bsize := 0, used := 0, ffa := 0
          bm := wrap (result.1 + heapHeader) }
        (wrapSub (wrap (pages * pageSize)) heapHeader) bsize
      some (result.1, fresh.2, { result.2 with mem := fresh.1 })

end Space

namespace Bitmap

/-- `halloc`: the pointer, the memory and the chain. -/
def halloc (size : Nat) :
    Memory → List Bitmap → Nat × Memory × List Bitmap
  | mem, [] => (0, mem, [])
  | mem, b :: rest =>
      let new := bmAlloc mem size b
      if new.1 ≠ 0 then (new.1, new.2.1, new.2.2 :: rest)
      else
        let later := halloc size new.2.1 rest
        (later.1, later.2.1, new.2.2 :: later.2.2)

/-- The loop of `hfree`, which hands the first region to `bm_free` in every
round: whether some round returned, the memory and the region. -/
def hfreeLoop (ptr : Nat) :
    (rounds : Nat) → Memory → Bitmap → Bool × Memory × Bitmap
  | 0, mem, heap => (false, mem, heap)
  | rounds + 1, mem, heap =>
      let freed := bmFree mem ptr heap
      if freed.1 ≠ 0 then (true, freed.2)
      else hfreeLoop ptr rounds freed.2.1 freed.2.2

/-- `hfree`: the messages, the memory and the chain. -/
def hfree (ptr : Nat) (mem : Memory) :
    List Bitmap → List LogLine × Memory × List Bitmap
  | [] => ([unknownPointer], mem, [])
  | heap :: rest =>
      let walk := hfreeLoop ptr (rest.length + 1) mem heap
      (if walk.1 then [] else [unknownPointer], walk.2.1, walk.2.2 :: rest)

/-- The loop of `hrealloc`, which hands the first region to `bm_realloc` in
every round; `none` when a copy faults. -/
def hreallocLoop (old size : Nat) :
    (rounds : Nat) → Memory → Bitmap → Option (Nat × Memory × Bitmap)
  | 0, mem, heap => some (0, mem, heap)
  | rounds + 1, mem, heap =>
      (bmRealloc mem old size heap).bind fun new =>
        if new.1 ≠ 0 then some new
        else hreallocLoop old size rounds new.2.1 new.2.2

/-- `hrealloc`: the messages, the pointer, the memory and the chain. -/
def hrealloc (old size : Nat) (mem : Memory) :
    List Bitmap → Option (List LogLine × Nat × Memory × List Bitmap)
  | [] => some ([unknownPointer], 0, mem, [])
  | heap :: rest =>
      (hreallocLoop old size (rest.length + 1) mem heap).map fun walk =>
        (if walk.1 ≠ 0 then [] else [unknownPointer], walk.1, walk.2.1,
          walk.2.2 :: rest)

end Bitmap

/-! ## Chains in another address space -/

namespace Machine

/-- The address of the `heap_t` in front of a region's bitmap. -/
def heapStart (b : Bitmap) : Word := BitVec.ofNat 64 (wrapSub b.bm heapHeader)

/-- Pages of a heap region. -/
def heapPages (b : Bitmap) : Nat := divCeil (b.size + heapHeader) pageSize

/-- The inner loop of `map_heap`: its first `count` rounds. -/
def mapRegion (srcVmm dest start : Word) : Nat → Machine → Option Machine
  | 0, s => some s
  | count + 1, s =>
      (mapRegion srcVmm dest start count s).bind fun s =>
        mapAddr (s.translateAddr (Pmm.pageAddress start count) srcVmm)
          (Pmm.pageAddress start count) kernelPtEntry dest s

/-- `map_heap`. -/
def mapHeap (srcVmm dest : Word) : List Bitmap → Machine → Option Machine
  | [], s => some s
  | b :: chain, s =>
      (mapRegion srcVmm dest (heapStart b) (heapPages b) s).bind
        (mapHeap srcVmm dest chain)

end Machine
end PivotOs
