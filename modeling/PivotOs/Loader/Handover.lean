import PivotOs.Loader.Discovery
import PivotOs.Loader.EntryArray

/-!
# Handing over to the kernel

`efi_main` looks for a screen and for the ACPI tables, makes the first page
tables, loads the kernel, gives it a stack, and maps what the firmware says about
memory.  When the firmware has been left it switches to the new tables and the new
stack and calls the kernel.  `ParseMMAP` does not look at the status of its
mappings, so the kernel may be called although a page table could not be
allocated.  When none was missing, everything that was mapped on the way is still
there when the kernel starts.
-/

namespace PivotOs

open Paging

/-- The answers of the firmware to `efi_main`. -/
structure EfiServices extends BootServices where
  /-- The screen. -/
  gop : GraphicsOutput
  /-- The tables. -/
  tables : ConfigTables
  /-- What `AllocatePages` leaves in `p4_tbl`. -/
  pml4 : Word
  /-- The page that `AllocatePages` gives for the stack. -/
  stack : Word
  /-- The memory map, at each call of `GetMMAP`. -/
  memoryMap : Nat → MemoryMap
  /-- What `AllocatePages` leaves in `kinfo.mem.bitmap`. -/
  bitmap : Word

/-- What `efi_main` stores in `kinfo`. -/
structure BootInfo where
  /-- `mem.mmap`, `mem.mmap_size` and `mem.mmap_desc_size`. -/
  mmap : MemoryMap
  /-- `mem.num_ke`. -/
  numKe : Nat
  /-- `mem.ke`. -/
  ke : Word
  /-- `mem.pml4`. -/
  pml4 : Word
  /-- The fields of `mem` that `ParseMMAP` sets. -/
  mem : MemInfo
  /-- `fb`. -/
  fb : FbInfo
  /-- `acpi`. -/
  acpi : AcpiInfo

/-- The machine when the kernel is called. -/
structure Handover where
  /-- `cr3`. -/
  cr3 : Word
  /-- The stack pointer, before the call. -/
  rsp : Word
  /-- The address that is called. -/
  entry : Word
  /-- The first argument. -/
  info : BootInfo
  /-- The second argument. -/
  stack : Word
  /-- The page tables and the memory. -/
  boot : Boot

namespace Boot

/-- Go on after a success. -/
def checked {α : Type} (result : EfiStatus × α) : Option α :=
  match result with
  | (.success, a) => some a
  | (.error, _) => none

/-- `GetMMAP`, the first time or the second.  `EFI_BUFFER_TOO_SMALL` is no error
of the first call. -/
def getMmap (services : EfiServices) (time : Nat) (s : Boot) :
    Option (MemoryMap × Boot) :=
  -- `GetMemoryMap`, `AllocatePool`, `GetMemoryMap`
  (s.called services.toBootServices).bind fun s =>
  (s.called services.toBootServices).bind fun s =>
  (s.called services.toBootServices).map fun s => (services.memoryMap time, s)

/-- The part of `efi_main` up to `LoadKernel`. -/
def prepare (services : EfiServices) (s : Boot) :
    Option ((FbInfo × AcpiInfo) × Boot) :=
  -- `SetWatchdogTimer`, `SetMem`, `Reset`
  (s.called services.toBootServices).bind fun s =>
  (s.called services.toBootServices).bind fun s =>
  (s.called services.toBootServices).bind fun s =>
  (configureGraphics services.toBootServices services.gop s).bind fun (fb, s) =>
  (services.tables.findRsdp s.mem).bind fun acpi =>
  (checked (Loader.configurePaging services.pml4 s.loader)).bind fun loader =>
  (checked (loadKernel services.toBootServices services.pml4
    { s with loader := loader })).map fun s => ((fb, acpi), s)

/-- The part of `efi_main` behind `LoadKernel`. -/
def finish (services : EfiServices) (s : Boot) :
    Option ((MemoryMap × MemInfo) × Boot) :=
  -- `AllocatePages`
  (s.called services.toBootServices).bind fun s =>
  (checked (Loader.mapRange services.stack (vaddr services.stack) services.pml4 1
    s.loader)).bind fun loader =>
  (getMmap services 0 { s with loader := loader }).bind fun (map, s) =>
  let parsed := Loader.parseMmap map services.pml4 services.bitmap s.loader
  (checked (parsed.1, parsed.2.2)).bind fun loader =>
  -- `FreePool`
  (Boot.called services.toBootServices { s with loader := loader }).bind fun s =>
  (getMmap services 1 s).bind fun (map, s) =>
  -- `ExitBootServices`
  (s.called services.toBootServices).map fun s => ((map, parsed.2.1), s)

/-- `efi_main`, when it calls the kernel. -/
def efiMain (services : EfiServices) (s : Boot) : Option Handover :=
  (prepare services s).bind fun ((fb, acpi), s) =>
  (finish services s).map fun ((mmap, mem), s) =>
    { cr3 := services.pml4
      rsp := vaddr (services.stack + BitVec.ofNat 64 pageSize)
      entry := s.entryPoint
      info :=
        { mmap := mmap
          numKe := s.numKe
          ke := s.ke
          pml4 := services.pml4
          mem := mem
          fb := fb
          acpi := acpi }
      stack := services.stack
      boot := s }

end Boot

/-! ## Pages of the lower half -/

namespace Loader

variable {pml4 : Word} {s next last : Loader}

/-- From `s` to `next` only pages of the lower half were mapped. -/
def GrewLow (pml4 : Word) (s next : Loader) : Prop :=
  ∃ tables, Grew pml4 tables { page | page < 2 ^ 35 } s next

theorem GrewLow.trans
    (sound : s.Sound pml4)
    (first : GrewLow pml4 s next)
    (second : GrewLow pml4 next last) :
    GrewLow pml4 s last := by
  obtain ⟨tables, grew⟩ := first
  obtain ⟨later, grewLater⟩ := second
  exact ⟨later ++ tables, grew.trans sound grewLater⟩

theorem GrewLow.sound (low : GrewLow pml4 s next) : next.Sound pml4 := by
  obtain ⟨_, grew⟩ := low
  exact grew.sound

/-- The higher half stays as it was. -/
theorem GrewLow.leaf_eq
    {address : Word}
    (sound : s.Sound pml4)
    (low : GrewLow pml4 s next)
    (high : 2 ^ 35 ≤ pageOf address) :
    next.leafAt pml4 address = s.leafAt pml4 address := by
  obtain ⟨_, grew⟩ := low
  exact grew.leaf_high sound (Nat.not_lt.mpr high) high

theorem mapRange_grewLow
    {phys start : Word} {count : Nat}
    (sound : s.Sound pml4)
    (aligned : start.toNat % 4096 = 0)
    (fits : start.toNat + count * 4096 ≤ 2 ^ 47) :
    GrewLow pml4 s (mapRange phys start pml4 count s).2 := by
  obtain ⟨tables, grew⟩ := mapRange_grew phys start count sound
  refine ⟨tables, grew.mono ?_⟩
  rintro page ⟨i, below, rfl⟩
  exact (lowPage_pageAddress aligned fits below).pageOf_lt

theorem mapDescriptor_grewLow
    {desc : MmapDesc}
    (sound : s.Sound pml4)
    (aligned : desc.physicalStart.toNat % 4096 = 0)
    (nonempty : desc.count ≠ 0#64)
    (low : desc.physicalStart.toNat + desc.count.toNat * 4096 ≤ 2 ^ 47) :
    GrewLow pml4 s (mapDescriptor desc pml4 s) := by
  rw [mapDescriptor]
  split
  · split
    · have start : (BitVec.ofNat 64 pageSize).toNat = 4096 := by decide
      have fewer : (desc.count - 1#64).toNat + 1 = desc.count.toNat := by
        have positive : desc.count.toNat ≠ 0 := fun zero =>
          nonempty (BitVec.eq_of_toNat_eq zero)
        have small := desc.count.isLt
        rw [BitVec.toNat_sub]
        simp only [BitVec.toNat_ofNat]
        omega
      exact mapRange_grewLow sound (by rw [start]) (by rw [start]; omega)
    · exact mapRange_grewLow sound aligned low
  · exact ⟨[], Grew.refl sound⟩

/-- The loop of `ParseMMAP`, from the descriptor `first` on. -/
theorem mapDescriptors_grewLow
    {map : MemoryMap} {entries first : Nat} {maxAddr : Word}
    (loadable : map.Loadable)
    (inside : first + entries ≤ map.entries)
    (sound : s.Sound pml4) :
    GrewLow pml4 s (mapDescriptors map pml4 entries (first * map.mmapDescSize)
      maxAddr s).2 := by
  induction entries generalizing first maxAddr s with
  | zero => exact ⟨[], Grew.refl sound⟩
  | succ entries inductionHypothesis =>
      have here : first < map.entries := by omega
      have mapped := mapDescriptor_grewLow sound (loadable.aligned first here)
        (loadable.nonempty first here) (loadable.low first here)
      rw [mapDescriptors, ← Nat.succ_mul]
      exact mapped.trans sound (inductionHypothesis (by omega) mapped.sound)

/-- `ParseMMAP` maps pages of the lower half only. -/
theorem parseMmap_grewLow
    {map : MemoryMap} {bitmap : Word}
    (loadable : map.Loadable)
    (sound : s.Sound pml4)
    (aligned : bitmap.toNat % 4096 = 0)
    (fits : bitmap.toNat + (parseMmap map pml4 bitmap s).2.1.bitmapSize * 4096 ≤
      2 ^ 47) :
    GrewLow pml4 s (parseMmap map pml4 bitmap s).2.2 := by
  have mapped := @mapDescriptors_grewLow pml4 s map map.entries 0 0#64 loadable
    (Nat.zero_add _).le sound
  rw [Nat.zero_mul] at mapped
  exact mapped.trans sound (mapRange_grewLow mapped.sound aligned fits)

/-- Failures stay counted. -/
theorem mapDescriptors_failures_le
    (map : MemoryMap) (entries offset : Nat) (maxAddr : Word) :
    s.failures ≤
      (mapDescriptors map pml4 entries offset maxAddr s).2.failures := by
  induction entries generalizing offset maxAddr s with
  | zero => exact le_rfl
  | succ entries inductionHypothesis =>
      refine le_trans ?_ (inductionHypothesis _ _)
      rw [mapDescriptor]
      split
      · split
        · exact (mapRange_counts _ _ _ _).failures_le
        · exact (mapRange_counts _ _ _ _).failures_le
      · exact le_rfl

theorem parseMmap_failures_le (map : MemoryMap) (bitmap : Word) :
    s.failures ≤ (parseMmap map pml4 bitmap s).2.2.failures :=
  (mapDescriptors_failures_le map _ 0 0#64).trans
    (mapRange_counts _ _ _ _).failures_le

end Loader

/-! ## `LoadKernel` on the way -/

namespace Boot

variable {services : BootServices} {pml4 : Word} {s next : Boot}

/-- A run of `LoadKernel` that succeeds without a missing table has loaded every
segment. -/
theorem loadKernel_finished
    (file : WellFormed services.file)
    (sound : s.loader.Sound pml4)
    (provides : services.Provides pml4 services.file.loads s.loader)
    (enough : (loadKernel services pml4 s).2.loader.failures =
      s.loader.failures)
    (success : (loadKernel services pml4 s).1 = .success) :
    Finished services pml4 services.file.loads s.loader
      (loadKernel services pml4 s).2 := by
  have went : ¬ Fails services (loadKernel services pml4 s) := fun failed =>
    absurd (success.symm.trans failed.1) (by decide)
  rw [loadKernel] at enough went ⊢
  rcases readHeader_cases file s _ with failed | ⟨opened, eq, same, -⟩
  · exact absurd failed went
  rw [eq] at enough went ⊢
  rcases readProgramHeaders_cases file opened _ with failed | ⟨read, eq, again⟩
  · exact absurd failed went
  rw [eq] at enough went ⊢
  rw [← same, ← again] at sound provides enough ⊢
  rcases loadProgram_cases read sound file.loadable provides rfl with
    failed | done
  · exact absurd failed went
  · exact (done enough).2

/-- Failures stay counted. -/
theorem loadKernel_failures_le
    (success : (loadKernel services pml4 s).1 = .success) :
    s.loader.failures ≤ (loadKernel services pml4 s).2.loader.failures := by
  obtain ⟨start, mapped, loaded, last⟩ := (loadKernel_programmed success).loaded
  have more := loadSegments_failures_le loaded
  have counts := @Loader.mapRange_counts pml4 s.loader (alignAddr services.ke)
    (vaddr (alignAddr services.ke)) ((services.keLength + 4095) / 4096)
  rw [← mapped] at counts
  rw [last]
  exact counts.failures_le.trans more

end Boot

/-! ## The way through `efi_main` -/

namespace Boot

variable {services : EfiServices} {s next : Boot}

theorem checked_eq_some
    {α : Type} {result : EfiStatus × α} {a : α}
    (ran : checked result = some a) :
    result.1 = .success ∧ a = result.2 := by
  obtain ⟨status, b⟩ := result
  cases status with
  | success => exact ⟨rfl, (Option.some.inj ran).symm⟩
  | error => cases ran

theorem getMmap_spec
    {time : Nat} {map : MemoryMap}
    (ran : getMmap services time s = some (map, next)) :
    map = services.memoryMap time ∧ Called s next := by
  obtain ⟨asked, call1, ran⟩ := Option.bind_eq_some_iff.mp ran
  obtain ⟨allocated, call2, ran⟩ := Option.bind_eq_some_iff.mp ran
  obtain ⟨last, call3, eq⟩ := Option.map_eq_some_iff.mp ran
  obtain ⟨rfl, rfl⟩ := Prod.mk.inj eq
  exact ⟨rfl, ((called_of_eq_some call1).trans (called_of_eq_some call2)).trans
    (called_of_eq_some call3)⟩

/-- Up to `LoadKernel` nothing but the page tables changes. -/
theorem prepare_spec
    {found : FbInfo × AcpiInfo}
    (ran : prepare services s = some (found, next)) :
    services.gop.Chooses found.1 ∧ ∃ start : Boot,
      (Loader.configurePaging services.pml4 s.loader).1 = .success ∧
      start.loader = (Loader.configurePaging services.pml4 s.loader).2 ∧
      (loadKernel services.toBootServices services.pml4 start).1 = .success ∧
      next = (loadKernel services.toBootServices services.pml4 start).2 := by
  obtain ⟨s1, call1, ran⟩ := Option.bind_eq_some_iff.mp ran
  obtain ⟨s2, call2, ran⟩ := Option.bind_eq_some_iff.mp ran
  obtain ⟨s3, call3, ran⟩ := Option.bind_eq_some_iff.mp ran
  obtain ⟨⟨fb, s4⟩, graphics, ran⟩ := Option.bind_eq_some_iff.mp ran
  obtain ⟨acpi, -, ran⟩ := Option.bind_eq_some_iff.mp ran
  obtain ⟨loader, paged, ran⟩ := Option.bind_eq_some_iff.mp ran
  obtain ⟨last, loaded, eq⟩ := Option.map_eq_some_iff.mp ran
  obtain ⟨rfl, rfl⟩ := Prod.mk.inj eq
  obtain ⟨calls, rfl⟩ := (((called_of_eq_some call1).trans
    (called_of_eq_some call2)).trans (called_of_eq_some call3)).trans
    (configureGraphics_spec graphics).1
  obtain ⟨success, rfl⟩ := checked_eq_some paged
  obtain ⟨done, rfl⟩ := checked_eq_some loaded
  exact ⟨(configureGraphics_spec graphics).2, _, success, rfl, done, rfl⟩

/-- Behind `LoadKernel` nothing but the page tables changes. -/
theorem finish_spec
    {map : MemoryMap} {info : MemInfo}
    (ran : finish services s = some ((map, info), next)) :
    let stacked := Loader.mapRange services.stack (vaddr services.stack)
      services.pml4 1 s.loader
    let parsed := Loader.parseMmap (services.memoryMap 0) services.pml4
      services.bitmap stacked.2
    stacked.1 = .success ∧ parsed.1 = .success ∧
      map = services.memoryMap 1 ∧ info = parsed.2.1 ∧
        ∃ calls, next = { s with calls := calls, loader := parsed.2.2 } := by
  obtain ⟨s1, call1, ran⟩ := Option.bind_eq_some_iff.mp ran
  obtain ⟨stacked, mapped, ran⟩ := Option.bind_eq_some_iff.mp ran
  obtain ⟨⟨first, s2⟩, asked, ran⟩ := Option.bind_eq_some_iff.mp ran
  obtain ⟨parsed, walked, ran⟩ := Option.bind_eq_some_iff.mp ran
  obtain ⟨s3, call2, ran⟩ := Option.bind_eq_some_iff.mp ran
  obtain ⟨⟨second, s4⟩, again, ran⟩ := Option.bind_eq_some_iff.mp ran
  obtain ⟨s5, call3, eq⟩ := Option.map_eq_some_iff.mp ran
  obtain ⟨same, rfl⟩ := Prod.mk.inj eq
  obtain ⟨rfl, rfl⟩ := Prod.mk.inj same
  obtain ⟨_, rfl⟩ := called_of_eq_some call1
  obtain ⟨success, rfl⟩ := checked_eq_some mapped
  obtain ⟨rfl, _, rfl⟩ := getMmap_spec asked
  obtain ⟨done, rfl⟩ := checked_eq_some walked
  obtain ⟨rfl, later⟩ := getMmap_spec again
  obtain ⟨calls, rfl⟩ := ((called_of_eq_some call2).trans later).trans
    (called_of_eq_some call3)
  exact ⟨success, done, rfl, rfl, calls, rfl⟩

end Boot

/-! ## What the kernel finds -/

/-- What the firmware promises: it hands out pages, none of them twice, and the
second memory map keeps what the first one kept. -/
structure EfiServices.Honest (services : EfiServices) (s : Boot) : Prop where
  /-- Tables get pages of their own. -/
  firmware : s.loader.Firmware services.pml4
  /-- The pages of the segments are aligned. -/
  aligned : ∀ k header, services.file.loads[k]? = some header →
    (services.area k).toNat % 4096 = 0
  /-- They have physical addresses. -/
  low : ∀ k header, services.file.loads[k]? = some header →
    (services.area k).toNat + header.numPages * 4096 ≤ 2 ^ 52
  /-- No two segments share one. -/
  disjoint : ∀ k l left right frame, services.file.loads[k]? = some left →
    services.file.loads[l]? = some right →
      AreaCovers (services.area k) left.numPages frame →
      AreaCovers (services.area l) right.numPages frame → k = l
  /-- None of them is or becomes a table. -/
  apart : ∀ k header table, services.file.loads[k]? = some header →
    table = services.pml4 ∨ some table ∈ s.loader.pages →
      ¬ AreaCovers (services.area k) header.numPages (frameOf table)
  /-- The stack is a page. -/
  stack_aligned : services.stack.toNat % 4096 = 0
  /-- It ends in the lower half. -/
  stack_low : services.stack.toNat + 4096 < 2 ^ 47
  /-- The bitmap starts a page. -/
  bitmap_aligned : services.bitmap.toNat % 4096 = 0
  /-- The first memory map can be mapped. -/
  loadable : (services.memoryMap 0).Loadable
  /-- Memory to be mapped was to be mapped before. -/
  kept : ∀ i frame, i < (services.memoryMap 1).entries →
    ((services.memoryMap 1).desc i).Kept →
      ((services.memoryMap 1).desc i).Covers frame →
        ∃ j, j < (services.memoryMap 0).entries ∧
          ((services.memoryMap 0).desc j).Kept ∧
            ((services.memoryMap 0).desc j).Covers frame

/-- The kernel is called with its screen, its stack, its segments and the memory
of the map in place. -/
structure Handover.Holds (services : EfiServices) (h : Handover) : Prop where
  /-- The entry point of the file is called. -/
  entry : h.entry = (Elf64Ehdr.at services.file.byte 0).eEntry
  /-- The screen is set up. -/
  screen : services.gop.Chooses h.info.fb
  /-- The page below the stack pointer is the stack. -/
  stack : ∀ k, k < 4096 →
    mmu h.boot.loader.tables h.cr3 (h.rsp - BitVec.ofNat 64 (k + 1)) =
      some services.stack
  /-- Outside of the stack's page every byte of a segment is there. -/
  bytes : ∀ header ∈ services.file.loads, ∀ j, j < header.pMemsz.toNat →
    pageOf (header.pVaddr + BitVec.ofNat 64 j) ≠
        pageOf (vaddr services.stack) →
      h.boot.byteAt h.cr3 (header.pVaddr + BitVec.ofNat 64 j) =
        some (header.image services.file j)
  /-- No table lies in the pages of a segment. -/
  apart : ∀ k header table, services.file.loads[k]? = some header →
    h.boot.loader.IsTable h.cr3 table →
      ¬ AreaCovers (services.area k) header.numPages (frameOf table)
  /-- The segments are counted and listed. -/
  entries : h.info.numKe = services.file.loads.length ∧
    ∀ k header, services.file.loads[k]? = some header →
      h.boot.entries k =
        { vaddr := header.pVaddr
          paddr := services.area k
          numPages := header.numPages }
  /-- The memory of the map is mapped at its own addresses. -/
  memory : ∀ i, i < h.info.mmap.entries → (h.info.mmap.desc i).Kept →
    h.boot.loader.MapsDescriptor h.cr3 (h.info.mmap.desc i)
  /-- The bitmap is mapped at its own address. -/
  bitmap : ∀ i, i < h.info.mem.bitmapSize →
    h.boot.loader.IdentityMapped h.cr3 (Pmm.pageAddress h.info.mem.bitmap i)

namespace EfiServices.Honest

variable {services : EfiServices} {s : Boot}

theorem lowPage (honest : services.Honest s) :
    Loader.LowPage services.stack :=
  ⟨honest.stack_aligned, by have low := honest.stack_low; omega⟩

/-- The promise, once `ConfigurePaging` has made the first tables. -/
theorem provides (honest : services.Honest s) :
    services.Provides services.pml4 services.file.loads
      (Loader.configurePaging services.pml4 s.loader).2 where
  aligned := honest.aligned
  low := honest.low
  disjoint := honest.disjoint
  apart := fun k header table load known => honest.apart k header table load
    (Loader.configurePaging_isTable honest.firmware known)

end EfiServices.Honest

/-- The bytes of a segment are in the higher half. -/
theorem Elf64Phdr.Proper.le_pageOf_byte
    {header : Elf64Phdr} {file : EfiFile} {j : Nat}
    (proper : header.Proper file)
    (below : j < header.pMemsz.toNat) :
    2 ^ 35 ≤ pageOf (header.pVaddr + BitVec.ofNat 64 j) := by
  have high := proper.high
  have ends := proper.ends
  have offset : higherHalfOffset.toNat = 2 ^ 64 - 2 ^ 47 := by decide
  have address : (header.pVaddr + BitVec.ofNat 64 j).toNat =
      header.pVaddr.toNat + j := by
    rw [BitVec.toNat_add, BitVec.toNat_ofNat]
    omega
  rw [pageOf, address, pageSize]
  omega

/-- The stages of `efi_main`, when no table was missing: the tables that
`LoadKernel` starts with, what it leaves, and then the tables with the stack and
with the memory. -/
structure Stages (services : EfiServices) (start : Loader) (loaded : Boot)
    (stacked : Loader) (info : MemInfo) (final : Loader) : Prop where
  /-- The segments were loaded. -/
  finished : Boot.Finished services.toBootServices services.pml4
    services.file.loads start loaded
  /-- Then the stack was mapped, -/
  grew : ∃ tables, Loader.Grew services.pml4 tables
    {pageOf (vaddr services.stack)} loaded.loader stacked
  /-- with its page in the higher half, -/
  leaf : stacked.leafAt services.pml4 (vaddr services.stack) =
    services.stack ||| kernelPtEntry
  /-- and at last the memory, -/
  parsed : Loader.parseMmap (services.memoryMap 0) services.pml4
    services.bitmap stacked = (.success, info, final)
  /-- in the lower half, -/
  low : Loader.GrewLow services.pml4 stacked final
  /-- without a failure. -/
  even : final.failures = stacked.failures

namespace Stages

variable {services : EfiServices} {s loaded last : Boot}
  {start stacked final : Loader} {info : MemInfo}

/-- Of the higher half nothing but the stack changes behind `LoadKernel`. -/
theorem leaf_eq
    {address : Word}
    (stages : Stages services start loaded stacked info final)
    (high : 2 ^ 35 ≤ pageOf address)
    (other : pageOf address ≠ pageOf (vaddr services.stack)) :
    final.leafAt services.pml4 address =
      loaded.loader.leafAt services.pml4 address := by
  obtain ⟨_, before⟩ := stages.finished.grew
  obtain ⟨_, grew⟩ := stages.grew
  rw [stages.low.leaf_eq grew.sound high]
  exact grew.leaf_high before.sound (by simpa using other) high

/-- The segments are where `LoadKernel` left them. -/
theorem byteAt_eq
    {header : Elf64Phdr} {j : Nat}
    (stages : Stages services start loaded stacked info final)
    (file : Boot.WellFormed services.file)
    (provides : services.Provides services.pml4 services.file.loads start)
    (same : last.loader = final ∧ last.mem = loaded.mem)
    (member : header ∈ services.file.loads)
    (below : j < header.pMemsz.toNat)
    (other : pageOf (header.pVaddr + BitVec.ofNat 64 j) ≠
      pageOf (vaddr services.stack)) :
    last.byteAt services.pml4 (header.pVaddr + BitVec.ofNat 64 j) =
      some (header.image services.file j) := by
  obtain ⟨k, bound, rfl⟩ := List.mem_iff_getElem.mp member
  have load := List.getElem?_eq_getElem bound
  have high := (file.loadable.proper k _ load).le_pageOf_byte below
  rw [← stages.finished.toLoaded.byteAt_eq file.loadable provides load below,
    Boot.byteAt, Boot.byteAt, same.1, same.2, Loader.mmu_eq, Loader.mmu_eq,
    stages.leaf_eq high other]

/-- The memory of a descriptor that was kept stays where it is. -/
theorem mapsDescriptor
    {i : Nat}
    (stages : Stages services start loaded stacked info final)
    (honest : services.Honest s)
    (fits : services.bitmap.toNat + info.bitmapSize * 4096 ≤ 2 ^ 47)
    (inside : i < (services.memoryMap 1).entries)
    (kept : ((services.memoryMap 1).desc i).Kept) :
    final.MapsDescriptor services.pml4 ((services.memoryMap 1).desc i) := by
  obtain ⟨_, grew⟩ := stages.grew
  intro address aligned notNull covers
  obtain ⟨j, before, keptBefore, coversBefore⟩ :=
    honest.kept i _ inside kept covers
  exact Loader.parseMmap_identity honest.loadable grew.sound stages.parsed
    honest.bitmap_aligned fits stages.even before keptBefore address aligned
    notNull coversBefore

end Stages

namespace Boot

variable {services : EfiServices} {s loaded last : Boot}

/-- The stack's page, mapped in the higher half. -/
theorem mapRange_stack
    {loader : Loader}
    (honest : services.Honest s)
    (sound : loader.Sound services.pml4)
    (success : (Loader.mapRange services.stack (vaddr services.stack)
      services.pml4 1 loader).1 = .success) :
    (∃ tables, Loader.Grew services.pml4 tables {pageOf (vaddr services.stack)}
      loader (Loader.mapRange services.stack (vaddr services.stack)
        services.pml4 1 loader).2) ∧
      (Loader.mapRange services.stack (vaddr services.stack) services.pml4 1
        loader).2.leafAt services.pml4 (vaddr services.stack) =
          services.stack ||| kernelPtEntry := by
  have value := vaddr_toNat honest.lowPage.low
  have low := honest.lowPage.low
  have offset : higherHalfOffset.toNat = 2 ^ 64 - 2 ^ 47 := by decide
  have range : HighRange (vaddr services.stack) 1 := ⟨by omega, by omega⟩
  have first : ∀ address : Word, Pmm.pageAddress address 0 = address :=
    fun address => BitVec.add_zero address
  have page : rangePages (vaddr services.stack) 1 =
      {pageOf (vaddr services.stack)} := by
    rw [rangePages_succ, first]
    simp [rangePages]
  have leaf := Loader.mapRange_leafAt sound range success Nat.one_pos
  rw [first, first] at leaf
  exact ⟨page ▸ Loader.mapRange_grew _ _ 1 sound, leaf⟩

/-- The stages of a run that calls the kernel. -/
theorem stages_of_run
    {found : FbInfo × AcpiInfo} {map : MemoryMap} {info : MemInfo}
    (file : WellFormed services.file)
    (honest : services.Honest s)
    (prepared : prepare services s = some (found, loaded))
    (finished : finish services loaded = some ((map, info), last))
    (fits : services.bitmap.toNat + info.bitmapSize * 4096 ≤ 2 ^ 47)
    (enough : last.loader.failures = s.loader.failures) :
    ∃ stacked, Stages services (Loader.configurePaging services.pml4 s.loader).2
      loaded stacked info last.loader := by
  obtain ⟨-, start, -, started, success, rfl⟩ := prepare_spec prepared
  obtain ⟨mapped, parsed, -, rfl, calls, rfl⟩ := finish_spec finished
  simp only at enough fits ⊢
  have paged : s.loader.failures ≤
      (Loader.configurePaging services.pml4 s.loader).2.failures :=
    (Loader.mapAddr_counts { s.loader with
      tables := RadixTree.clear tableLinks s.loader.tables services.pml4 }
      services.pml4 services.pml4).failures_le
  have sound := Loader.configurePaging_sound honest.firmware
  have provides := honest.provides
  rw [← started] at paged sound provides ⊢
  have loading := loadKernel_failures_le success
  have stacking := (@Loader.mapRange_counts services.pml4 (loadKernel
    services.toBootServices services.pml4 start).2.loader services.stack
    (vaddr services.stack) 1).failures_le
  have parsing := @Loader.parseMmap_failures_le services.pml4 (Loader.mapRange
    services.stack (vaddr services.stack) services.pml4 1 (loadKernel
      services.toBootServices services.pml4 start).2.loader).2
    (services.memoryMap 0) services.bitmap
  have done := loadKernel_finished file sound provides (by omega) success
  obtain ⟨_, loadedGrew⟩ := done.grew
  obtain ⟨grew, leaf⟩ := mapRange_stack honest loadedGrew.sound mapped
  obtain ⟨_, stackGrew⟩ := grew
  exact ⟨_,
    { finished := done
      grew := ⟨_, stackGrew⟩
      leaf := leaf
      parsed := Prod.ext parsed rfl
      low := Loader.parseMmap_grewLow honest.loadable stackGrew.sound
        honest.bitmap_aligned fits
      even := by omega }⟩

end Boot

/-! ## A sample -/

/-- Two modes, the second of the right kind. -/
def sampleGop : GraphicsOutput where
  maxMode := 2#32
  queryMode := fun mode => ⟨if mode = 0 then 640#32 else 1024#32, 768#32, 1, 1024#32⟩
  info := fun _ => ⟨1024#32, 768#32, 1, 1024#32⟩
  frameBufferBase := fun _ => 0x80000000#64

/-- A descriptor of the first revision, with the root at `0x7000`. -/
def sampleRsdp : List (BitVec 8) :=
  [0x52#8, 0x53#8, 0x44#8, 0x20#8, 0x50#8, 0x54#8, 0x52#8, 0x20#8, 0xBF#8,
    0x50#8, 0x49#8, 0x56#8, 0x4F#8, 0x54#8, 0x20#8, 0#8, 0#8, 0x70#8, 0#8, 0#8]

def sampleEfi : EfiServices where
  toBootServices := sampleServices
  gop := sampleGop
  tables := { entries := [⟨7#128, 0x6000#64⟩], acpi20 := 8#128, acpi10 := 7#128 }
  pml4 := 0x200000#64
  stack := 0x500000#64
  memoryMap := fun _ => sampleMap
  bitmap := 0x600000#64

def sampleStart : Boot :=
  { sampleBoot with
    loader := sampleLoader
    mem := fun address => sampleRsdp.getD (address - 0x6000) 0#8 }

theorem sampleEfi_honest : sampleEfi.Honest sampleStart where
  firmware := sampleLoader_firmware
  aligned := sampleServices_provides.aligned
  low := sampleServices_provides.low
  disjoint := sampleServices_provides.disjoint
  apart := by
    intro k header table load known covers
    have frames : frameOf table < 0x400 := by
      rcases known with rfl | listed
      · decide
      · obtain ⟨i, below, eq⟩ := List.mem_map.mp listed
        obtain rfl := Option.some.inj eq
        have small := List.mem_range.mp below
        rw [frameOf, BitVec.toNat_ofNat, pageSize]
        omega
    have above := covers.1
    rcases sampleFile_load_cases load with ⟨rfl, -⟩ | ⟨rfl, -⟩
    · have first : frameOf (sampleEfi.area 0) = 0x400 := by decide
      omega
    · have second : frameOf (sampleEfi.area 1) = 0x410 := by decide
      omega
  stack_aligned := by decide
  stack_low := by decide
  bitmap_aligned := by decide
  loadable := sampleMap_loadable
  kept := fun i _ inside kept covers => ⟨i, inside, kept, covers⟩

end PivotOs
