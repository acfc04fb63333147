import PivotOs.Word

/-!
# The physical memory manager

`mem/pmm.c` keeps one bit per frame in rows of 64, a set bit meaning that the
frame is in use.  `Pmm` holds the fields of `kinfo.mem` these functions work
on.  The rows are a function of their index, so that a write past
`bitmap_entries` is a write to some row, as it is in memory.
-/

namespace PivotOs

/-- The fields of `mmap_desc_t` that `init_pmm` reads. -/
structure MmapDesc where
  /-- `type`. -/
  type : BitVec 32
  /-- `physical_start`. -/
  physicalStart : Word
  /-- `count`, in pages. -/
  count : Word

/-- The test of `init_pmm` on a descriptor.  The type is first narrowed to a
byte. -/
def MmapDesc.Usable (desc : MmapDesc) : Prop :=
  let type : BitVec 8 := desc.type.setWidth 8
  type = 3#8 ∨ type = 4#8 ∨ type = 7#8

instance (desc : MmapDesc) : Decidable desc.Usable :=
  inferInstanceAs (Decidable (_ ∨ _))

/-- The memory map: the descriptor that starts at a byte offset of
`KMEM.mmap`, the size of the map and the stride between descriptors. -/
structure MemoryMap where
  /-- The descriptor at a byte offset. -/
  descAt : Nat → MmapDesc
  /-- `KMEM.mmap_size`. -/
  mmapSize : Nat
  /-- `KMEM.mmap_desc_size`. -/
  mmapDescSize : Nat

/-- The frame bitmap. -/
structure Pmm where
  /-- `KMEM.bitmap`, by row. -/
  bitmap : Nat → Word
  /-- `KMEM.bitmap_entries`. -/
  bitmapEntries : Nat
  /-- `KMEM.mem_pages`. -/
  memPages : Nat

namespace Pmm

/-- `BITMAP_ROW_FULL`. -/
def bitmapRowFull : Word := 0xFFFFFFFFFFFFFFFF#64

/-- `BITMAP_ROW_BITS`. -/
def bitmapRowBits : Nat := 64

/-- Replace one row. -/
def setRow (m : Pmm) (row : Nat) (value : Word) : Pmm :=
  { m with bitmap := fun other => if other = row then value else m.bitmap other }

/-- `pmm_set_bit`. -/
def pmmSetBit (m : Pmm) (address : Word) : Pmm :=
  if address = 0#64 then m
  else
    let frame := frameOf address
    if m.memPages < frame then m
    else
      m.setRow (frame / bitmapRowBits)
        (m.bitmap (frame / bitmapRowBits) |||
          1#64 <<< (frame % bitmapRowBits))

/-- `pmm_clear_bit`. -/
def pmmClearBit (m : Pmm) (address : Word) : Pmm :=
  if address = 0#64 then m
  else
    let frame := frameOf address
    m.setRow (frame / bitmapRowBits)
      (m.bitmap (frame / bitmapRowBits) &&&
        ~~~(1#64 <<< (frame % bitmapRowBits)))

/-- The address `start + PAGE_SIZE * i`. -/
def pageAddress (start : Word) (i : Nat) : Word :=
  start + BitVec.ofNat 64 (pageSize * i)

/-- `pmm_set_area`. -/
def pmmSetArea (m : Pmm) (start : Word) : Nat → Pmm
  | 0 => m
  | i + 1 => (pmmSetArea m start i).pmmSetBit (pageAddress start i)

/-- `pmm_clear_area`. -/
def pmmClearArea (m : Pmm) (start : Word) : Nat → Pmm
  | 0 => m
  | i + 1 => (pmmClearArea m start i).pmmClearBit (pageAddress start i)

/-- The inner loop of `pmm_request_frame`: the first clear column from `col`
on. -/
def clearColumn (row : Word) : (fuel col : Nat) → Option Nat
  | 0, _ => none
  | fuel + 1, col =>
      if row &&& 1#64 <<< col = 0#64 then some col
      else clearColumn row fuel (col + 1)

/-- The outer loop of `pmm_request_frame`.  The row counter is a `uint16_t`,
so it wraps to 0 after row 65535; a walk that is still going after `2 ^ 16 + 1`
rounds goes on for ever, and the result is then `none`. -/
def requestFrom (m : Pmm) : (fuel : Nat) → (row : BitVec 16) → Option Int
  | 0, _ => none
  | fuel + 1, row =>
      if row.toNat < m.bitmapEntries then
        if m.bitmap row.toNat ≠ bitmapRowFull then
          match clearColumn (m.bitmap row.toNat) bitmapRowBits 0 with
          | some col => some (row.toNat * bitmapRowBits + col : Nat)
          | none => requestFrom m fuel (row + 1#16)
        else requestFrom m fuel (row + 1#16)
      else some (-1)

/-- `pmm_request_frame`. -/
def pmmRequestFrame (m : Pmm) : Option Int :=
  requestFrom m (2 ^ 16 + 1) 0#16

/-- `alloc_frame`: the address returned, 0 being the null pointer, and the
bitmap. -/
def allocFrame (m : Pmm) : Option (Word × Pmm) :=
  match pmmRequestFrame m with
  | none => none
  | some frame =>
      if 0 < frame then
        let address := BitVec.ofInt 64 (frame * pageSize)
        some (address, m.pmmSetBit address)
      else some (0#64, m)

/-- The loop of `init_pmm` over the memory map, from a byte offset on. -/
def freeUsable (map : MemoryMap) : (entries offset : Nat) → Pmm → Pmm
  | 0, _, m => m
  | entries + 1, offset, m =>
      let desc := map.descAt offset
      freeUsable map entries (offset + map.mmapDescSize)
        (if desc.Usable then
          m.pmmClearArea desc.physicalStart desc.count.toNat
        else m)

/-- The first loop of `init_pmm`: every row of the bitmap is full. -/
def fillRows (m : Pmm) : Pmm :=
  { m with
    bitmap := fun row =>
      if row < m.bitmapEntries then bitmapRowFull else m.bitmap row }

/-- `init_pmm`. -/
def initPmm (m : Pmm) (map : MemoryMap) : Pmm :=
  freeUsable map (map.mmapSize / map.mmapDescSize) 0
    (m.fillRows.pmmSetBit 0x8000#64)

end Pmm
end PivotOs
