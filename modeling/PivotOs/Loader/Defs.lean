import PivotOs.Paging.Defs

/-!
# The loader's half of memory management

`boot/mem.c` builds the kernel's first page tables while the firmware is still
there, and leaves in `kinfo.mem` what the kernel knows about memory.  The
firmware's `AllocatePages` is not part of the repository: `Loader` carries the
answers it is going to give, an error status being `none`.  The loader's
functions return a status, and on an error the tables stay as far as they have
got.
-/

namespace PivotOs

open Paging

/-- `EFI_STATUS`, as far as `EFI_ERROR` looks at it. -/
inductive EfiStatus
  | success
  | error
  deriving DecidableEq

/-- The page tables, and the firmware's answers to come. -/
structure Loader where
  /-- The page tables. -/
  tables : Tables
  /-- The answers of `AllocatePages`. -/
  pages : List (Option Word)
  /-- How many calls of `AllocTable` have failed. -/
  failures : Nat

namespace Loader

/-- `AllocTable`: a page from the firmware, zeroed. -/
def allocTable (s : Loader) : Option Word × Loader :=
  match s.pages with
  | some table :: pages =>
      (some table,
        { s with
          tables := RadixTree.clear tableLinks s.tables table
          pages := pages })
  | none :: pages =>
      (none, { s with pages := pages, failures := s.failures + 1 })
  | [] => (none, { s with failures := s.failures + 1 })

/-- Store one word of a table. -/
def store (s : Loader) (table : Word) (index : Fin 512) (word : Word) :
    Loader :=
  { s with tables := RadixTree.write s.tables table index word }

/-- One of the three tests of `MapAddr`: make the table of an entry that is
not present, and map it at its own address. -/
def ensure (identity : Word → Loader → EfiStatus × Loader) (table : Word)
    (index : Fin 512) (s : Loader) : EfiStatus × Loader :=
  if s.tables table index &&& 1#64 = 0#64 then
    match allocTable s with
    | (none, s) => (.error, s)
    | (some new, s) => identity new (s.store table index (new ||| kernelPtEntry))
  else (.success, s)

/-- The body of `MapAddr`, with `identity` for the call that maps a new table
at its own address. -/
def mapAddrWith (identity : Word → Loader → EfiStatus × Loader)
    (physAddr virtAddr p4Tbl : Word) (s : Loader) : EfiStatus × Loader :=
  match ensure identity p4Tbl (p4Entry virtAddr) s with
  | (.error, s) => (.error, s)
  | (.success, s) =>
      let p3Tbl := s.tables p4Tbl (p4Entry virtAddr) &&& signMask
      match ensure identity p3Tbl (p3Entry virtAddr) s with
      | (.error, s) => (.error, s)
      | (.success, s) =>
          let p2Tbl := s.tables p3Tbl (p3Entry virtAddr) &&& signMask
          match ensure identity p2Tbl (p2Entry virtAddr) s with
          | (.error, s) => (.error, s)
          | (.success, s) =>
              let p1Tbl := s.tables p2Tbl (p2Entry virtAddr) &&& signMask
              (.success,
                s.store p1Tbl (p1Entry virtAddr) (physAddr ||| kernelPtEntry))

/-- `MapAddr`, with a bound on the depth of its recursion. -/
def mapAddrFuel :
    (fuel : Nat) → (physAddr virtAddr p4Tbl : Word) → Loader →
      EfiStatus × Loader
  | 0, _, _, _, s => (.error, s)
  | fuel + 1, physAddr, virtAddr, p4Tbl, s =>
      mapAddrWith (fun table => mapAddrFuel fuel table table p4Tbl)
        physAddr virtAddr p4Tbl s

/-- `MapAddr`.  Every call it makes of itself comes after an answer of the
firmware, so the answers bound the depth. -/
def mapAddr (physAddr virtAddr p4Tbl : Word) (s : Loader) :
    EfiStatus × Loader :=
  mapAddrFuel (s.pages.length + 1) physAddr virtAddr p4Tbl s

/-- `MapRange`: the first `pages` rounds of its loop. -/
def mapRange (phys virt p4Tbl : Word) :
    (pages : Nat) → Loader → EfiStatus × Loader
  | 0, s => (.success, s)
  | pages + 1, s =>
      match mapRange phys virt p4Tbl pages s with
      | (.error, s) => (.error, s)
      | (.success, s) =>
          mapAddr (Pmm.pageAddress phys pages) (Pmm.pageAddress virt pages)
            p4Tbl s

/-- `ConfigurePaging`, for the page that the firmware chose for the root. -/
def configurePaging (pml4 : Word) (s : Loader) : EfiStatus × Loader :=
  mapAddr pml4 pml4 pml4
    { s with tables := RadixTree.clear tableLinks s.tables pml4 }

end Loader

/-! ## `ParseMMAP` -/

/-- The test of `ParseMMAP` on a descriptor. -/
def MmapDesc.Kept (desc : MmapDesc) : Prop :=
  desc.type = 1#32 ∨ desc.type = 2#32 ∨ desc.type = 3#32 ∨
    desc.type = 4#32 ∨ desc.type = 7#32 ∨ desc.type = 9#32

instance (desc : MmapDesc) : Decidable desc.Kept :=
  inferInstanceAs (Decidable (_ ∨ _))

/-- `SIZE_TO_PAGES`. -/
def sizeToPages (size : Nat) : Nat := divCeil size pageSize

/-- The fields of `kinfo.mem` that `ParseMMAP` sets. -/
structure MemInfo where
  /-- `bitmap`. -/
  bitmap : Word
  /-- `bitmap_entries`. -/
  bitmapEntries : Nat
  /-- `bitmap_size`. -/
  bitmapSize : Nat
  /-- `mem_pages`. -/
  memPages : Nat

namespace MemInfo

/-- The local variable `bitmap_size` of `ParseMMAP`, in bytes. -/
def bitmapBytes (memPages : Nat) : Nat := wrap (divCeil memPages 64 * 8)

/-- The end of `ParseMMAP`: what it stores for this much memory and a bitmap
at this address. -/
def stored (bitmap : Word) (memPages : Nat) : MemInfo where
  bitmap := bitmap
  bitmapEntries := bitmapBytes memPages / 8
  bitmapSize := sizeToPages (bitmapBytes memPages)
  memPages := memPages

/-- There are as many rows as it takes to give every page a bit. -/
theorem stored_bitmapEntries
    (bitmap : Word)
    {memPages : Nat}
    (small : memPages < 2 ^ 52) :
    (stored bitmap memPages).bitmapEntries = (memPages + 63) / 64 := by
  simp only [stored, bitmapBytes, divCeil, wrap]
  omega

/-- The size is in pages. -/
theorem stored_bitmapSize
    (bitmap : Word)
    {memPages : Nat}
    (small : memPages < 2 ^ 52) :
    (stored bitmap memPages).bitmapSize =
      ((memPages + 63) / 64 * 8 + 4095) / 4096 := by
  simp only [stored, sizeToPages, bitmapBytes, divCeil, wrap, pageSize]
  omega

end MemInfo

namespace Loader

/-- The body of the loop of `ParseMMAP`: map the pages of a descriptor at
their own addresses, page 0 apart.  The status is not looked at. -/
def mapDescriptor (desc : MmapDesc) (pml4 : Word) (s : Loader) : Loader :=
  if desc.Kept then
    if desc.physicalStart = 0#64 then
      (mapRange (BitVec.ofNat 64 pageSize) (BitVec.ofNat 64 pageSize) pml4
        (desc.count - 1#64).toNat s).2
    else
      (mapRange desc.physicalStart desc.physicalStart pml4 desc.count.toNat
        s).2
  else s

/-- `new_max_addr` of a descriptor. -/
def newMaxAddr (desc : MmapDesc) : Word :=
  desc.physicalStart + desc.count * BitVec.ofNat 64 pageSize

/-- The loop of `ParseMMAP` over the memory map, from a byte offset on. -/
def mapDescriptors (map : MemoryMap) (pml4 : Word) :
    (entries offset : Nat) → (maxAddr : Word) → Loader → Word × Loader
  | 0, _, maxAddr, s => (maxAddr, s)
  | entries + 1, offset, maxAddr, s =>
      let desc := map.descAt offset
      mapDescriptors map pml4 entries (offset + map.mmapDescSize)
        (if maxAddr < newMaxAddr desc then newMaxAddr desc else maxAddr)
        (mapDescriptor desc pml4 s)

/-- `ParseMMAP`, for the address at which the firmware put the bitmap. -/
def parseMmap (map : MemoryMap) (pml4 bitmap : Word) (s : Loader) :
    EfiStatus × MemInfo × Loader :=
  let mapped := mapDescriptors map pml4 (map.mmapSize / map.mmapDescSize) 0
    0#64 s
  let info := MemInfo.stored bitmap (mapped.1.toNat / pageSize)
  let result := mapRange bitmap bitmap pml4
    (sizeToPages (MemInfo.bitmapBytes info.memPages)) mapped.2
  (result.1, info, result.2)

end Loader
end PivotOs
