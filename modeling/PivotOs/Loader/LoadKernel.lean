import PivotOs.Loader.Defs
import PivotOs.Thread.Defs

/-!
# Loading the kernel

`boot/loader.c` reads the kernel from an ELF file.  Every segment that is to be
loaded gets pages of its own from the firmware; its bytes are read into them at
the offset that its virtual address has in a page, the rest is filled with
zeros, and the pages are mapped one by one.  What was loaded is listed in
`kinfo.mem.ke`, which the kernel goes by when it makes the address space of a
thread.

The firmware is not part of the repository.  `BootServices` holds its answers:
the status of each call in turn, and what the calls return that return more
than a status.  A function stops at the first call that fails, which changes
nothing but the number of calls made.
-/

namespace PivotOs

open Paging

/-! ## The file -/

/-- The kernel's file.  Its size is a `UINT64`. -/
structure EfiFile where
  /-- The number of bytes. -/
  size : Nat
  /-- The byte at an offset. -/
  byte : Nat → BitVec 8
  /-- The size fits. -/
  size_lt : size < 2 ^ 64

namespace EfiFile

/-- `SetPosition`: the position that it sets.  The highest value stands for the
end of the file. -/
def setPosition (file : EfiFile) (position : Word) : Nat :=
  if position = BitVec.allOnes 64 then file.size else position.toNat

/-- `Read`: the number of bytes read, which end with the file. -/
def readCount (file : EfiFile) (position : Nat) (size : Word) : Word :=
  BitVec.ofNat 64 (min size.toNat (file.size - position))

end EfiFile

namespace Memory

/-- Bytes taken from somewhere else, `count` of them from `address` on. -/
def fill (mem : Memory) (address count : Nat) (bytes : Nat → BitVec 8) :
    Memory :=
  fun place =>
    if address ≤ place ∧ place < address + count then bytes (place - address)
    else mem place

/-- An integer of `width` bytes, lowest byte first. -/
def field (mem : Memory) (address : Nat) : (width : Nat) → Nat
  | 0 => 0
  | width + 1 => (mem address).toNat + 256 * field mem (address + 1) width

end Memory

/-- The fields of `elf64_ehdr_t` that are read. -/
structure Elf64Ehdr where
  /-- `e_entry`. -/
  eEntry : Word
  /-- `e_phoff`. -/
  ePhoff : Word
  /-- `e_phentsize`. -/
  ePhentsize : Nat
  /-- `e_phnum`. -/
  ePhnum : Nat

/-- The fields of `elf64_phdr_t` that are read. -/
structure Elf64Phdr where
  /-- `p_type`. -/
  pType : Nat
  /-- `p_offset`. -/
  pOffset : Word
  /-- `p_vaddr`. -/
  pVaddr : Word
  /-- `p_filesz`. -/
  pFilesz : Word
  /-- `p_memsz`. -/
  pMemsz : Word
  deriving DecidableEq

/-- `sizeof(elf64_ehdr_t)`. -/
def ehdrSize : Nat := 64

/-- `sizeof(elf64_phdr_t)`. -/
def phdrSize : Nat := 56

/-- `sizeof(kernel_entry_t)`. -/
def kernelEntrySize : Nat := 24

/-- The header in these bytes. -/
def Elf64Ehdr.at (mem : Memory) (address : Nat) : Elf64Ehdr where
  eEntry := BitVec.ofNat 64 (mem.field (address + 24) 8)
  ePhoff := BitVec.ofNat 64 (mem.field (address + 32) 8)
  ePhentsize := mem.field (address + 54) 2
  ePhnum := mem.field (address + 56) 2

/-- The program header in these bytes. -/
def Elf64Phdr.at (mem : Memory) (address : Nat) : Elf64Phdr where
  pType := mem.field address 4
  pOffset := BitVec.ofNat 64 (mem.field (address + 8) 8)
  pVaddr := BitVec.ofNat 64 (mem.field (address + 16) 8)
  pFilesz := BitVec.ofNat 64 (mem.field (address + 32) 8)
  pMemsz := BitVec.ofNat 64 (mem.field (address + 40) 8)

namespace Elf64Phdr

/-- A segment to be loaded, `PT_LOAD`. -/
def Load (header : Elf64Phdr) : Prop := header.pType = 1

instance (header : Elf64Phdr) : Decidable header.Load :=
  inferInstanceAs (Decidable (_ = _))

end Elf64Phdr

/-- `EFI_SIZE_TO_PAGES`. -/
def efiSizeToPages (size : Word) : Word :=
  (size >>> 12) + if size &&& 0xFFF#64 = 0#64 then 0#64 else 1#64

namespace Elf64Phdr

/-- `page_offset`. -/
def pageOffset (header : Elf64Phdr) : Word :=
  header.pVaddr % BitVec.ofNat 64 pageSize

/-- `num_pages`. -/
def numPages (header : Elf64Phdr) : Nat :=
  (efiSizeToPages (header.pageOffset + header.pMemsz)).toNat

end Elf64Phdr

/-! ## The firmware -/

/-- The answers of the firmware. -/
structure BootServices where
  /-- The kernel's file. -/
  file : EfiFile
  /-- The status of a call. -/
  status : Nat → EfiStatus
  /-- The pages that `AllocatePages` gives for the segment of an entry. -/
  area : Nat → Word
  /-- The array that `AllocatePool` gives for the kernel entries. -/
  ke : Word
  /-- What the pool memory for the header held before. -/
  headerBuf : Memory
  /-- What the pool memory for the program headers held before. -/
  pheaderBuf : Memory

/-- What `LoadKernel` changes. -/
structure Boot where
  /-- The page tables. -/
  loader : Loader
  /-- Physical memory. -/
  mem : Memory
  /-- The position in the file. -/
  position : Nat
  /-- How many calls have been made. -/
  calls : Nat
  /-- The array of kernel entries. -/
  entries : Nat → KernelEntry
  /-- `kinfo.mem.ke`. -/
  ke : Word
  /-- `kinfo.mem.num_ke`. -/
  numKe : Nat
  /-- `kernel_entry_point`. -/
  entryPoint : Word

namespace Boot

/-- A call of the firmware, and the rest of the function if it succeeds. -/
def call (services : BootServices) (s : Boot)
    (rest : Boot → EfiStatus × Boot) : EfiStatus × Boot :=
  match services.status s.calls with
  | .success => rest { s with calls := s.calls + 1 }
  | .error => (.error, { s with calls := s.calls + 1 })

/-- Go on unless there was an error. -/
def andThen (result : EfiStatus × Boot) (rest : Boot → EfiStatus × Boot) :
    EfiStatus × Boot :=
  match result with
  | (.success, s) => rest s
  | (.error, s) => (.error, s)

end Boot

namespace Loader

/-- The loop of `LoadSegment`: its first `pages` rounds.  The status is not
looked at. -/
def mapSegment (segmentData pVaddr p4Tbl : Word) : (pages : Nat) → Loader →
    Loader
  | 0, s => s
  | pages + 1, s =>
      (mapAddr (alignAddr (Pmm.pageAddress segmentData pages))
        (alignAddr (Pmm.pageAddress pVaddr pages)) p4Tbl
        (mapSegment segmentData pVaddr p4Tbl pages s)).2

end Loader

namespace Boot

/-- `LoadSegment`, for the entry with this index. -/
def loadSegment (services : BootServices) (header : Elf64Phdr) (p4Tbl : Word)
    (entry : Nat) (s : Boot) : EfiStatus × Boot :=
  call services s fun s =>
  let s := { s with position := services.file.setPosition header.pOffset }
  call services s fun s =>
  let segmentData := services.area entry
  call services s fun s =>
  let position := s.position
  let bufferReadSize := services.file.readCount position header.pFilesz
  let s :=
    { s with
      position := position + bufferReadSize.toNat
      mem := s.mem.fill (segmentData + header.pageOffset).toNat
        bufferReadSize.toNat fun i => services.file.byte (position + i) }
  call services s fun s =>
  (.success,
    { s with
      mem := s.mem.fill
        (segmentData + header.pageOffset + bufferReadSize).toNat
        (header.pMemsz - bufferReadSize).toNat fun _ => 0#8
      entries := Function.update s.entries entry
        { vaddr := header.pVaddr
          paddr := segmentData
          numPages := header.numPages }
      loader := s.loader.mapSegment segmentData header.pVaddr p4Tbl
        header.numPages })

/-- The loop of `LoadKernel` over the program headers, with `entry` entries
filled in already. -/
def loadSegments (services : BootServices) (p4Tbl : Word) :
    (headers : List Elf64Phdr) → (entry : Nat) → Boot → EfiStatus × Boot
  | [], _, s => (.success, s)
  | header :: headers, entry, s =>
      if header.Load then
        andThen (loadSegment services header p4Tbl entry s)
          (loadSegments services p4Tbl headers (entry + 1))
      else loadSegments services p4Tbl headers entry s

/-- The first part of `LoadKernel`: the header of the file. -/
def readHeader (services : BootServices) (s : Boot)
    (rest : Elf64Ehdr → Boot → EfiStatus × Boot) : EfiStatus × Boot :=
  -- `LocateProtocol`, `OpenVolume`, `Open`
  call services s fun s => call services s fun s => call services s fun s =>
  -- `SetPosition` twice, `AllocatePool`, `Read`
  call services s fun s =>
  let s := { s with position := services.file.setPosition 0#64 }
  call services s fun s =>
  let s := { s with position := services.file.setPosition 0#64 }
  call services s fun s => call services s fun s =>
  let position := s.position
  let bufferReadSize :=
    services.file.readCount position (BitVec.ofNat 64 ehdrSize)
  let s := { s with position := position + bufferReadSize.toNat }
  let buf := services.headerBuf.fill 0 bufferReadSize.toNat fun i =>
    services.file.byte (position + i)
  if buf 0 ≠ 0x7F#8 ∨ buf 1 ≠ 0x45#8 ∨ buf 2 ≠ 0x4C#8 ∨ buf 3 ≠ 0x46#8 then
    (.error, s)
  else if buf 4 = 1#8 then (.error, s)
  else
    let hdr := Elf64Ehdr.at buf 0
    rest hdr { s with entryPoint := hdr.eEntry }

/-- The second part of `LoadKernel`: the program headers. -/
def readProgramHeaders (services : BootServices) (hdr : Elf64Ehdr) (s : Boot)
    (rest : List Elf64Phdr → Boot → EfiStatus × Boot) : EfiStatus × Boot :=
  -- `SetPosition`, `AllocatePool`, `Read`
  call services s fun s =>
  let s := { s with position := services.file.setPosition hdr.ePhoff }
  call services s fun s => call services s fun s =>
  let position := s.position
  let bufferReadSize :=
    services.file.readCount position (BitVec.ofNat 64 (phdrSize * hdr.ePhnum))
  let s := { s with position := position + bufferReadSize.toNat }
  let buf := services.pheaderBuf.fill 0 bufferReadSize.toNat fun i =>
    services.file.byte (position + i)
  rest ((List.range hdr.ePhnum).map fun p => Elf64Phdr.at buf (phdrSize * p)) s

/-- The last part of `LoadKernel`: the array of entries and the segments. -/
def loadProgram (services : BootServices) (pml4 : Word)
    (headers : List Elf64Phdr) (s : Boot) : EfiStatus × Boot :=
  let numKernelEntries := headers.countP fun header => header.Load
  -- `AllocatePool`
  call services s fun s =>
  let s := { s with ke := services.ke }
  let keAddr := alignAddr s.ke
  let mapped := s.loader.mapRange keAddr (vaddr keAddr) pml4
    (efiSizeToPages
      (BitVec.ofNat 64 (numKernelEntries * kernelEntrySize))).toNat
  andThen (mapped.1, { s with loader := mapped.2 }) fun s =>
  andThen (loadSegments services pml4 headers 0 s) fun s =>
  -- `Close` and two calls of `FreePool`
  call services s fun s => call services s fun s => call services s fun s =>
  (.success, { s with numKe := numKernelEntries, ke := vaddr s.ke })

/-- `LoadKernel`. -/
def loadKernel (services : BootServices) (pml4 : Word) (s : Boot) :
    EfiStatus × Boot :=
  readHeader services s fun hdr s =>
  readProgramHeaders services hdr s fun headers s =>
  loadProgram services pml4 headers s

end Boot
end PivotOs
