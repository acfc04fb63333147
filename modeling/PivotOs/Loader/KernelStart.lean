import PivotOs.Loader.Handover
import PivotOs.Pmm.Exclusive

/-!
# The kernel's first frames

`init_pmm` clears the bits of what the memory map calls usable.  The pages that
the loader got from the firmware are listed as its own by then, so that their bits
stay set: the page tables that the kernel goes on with are a tree in frames in
use, and `alloc_frame` never returns a page of the kernel's image, of its stack, of
its bitmap or of its page tables.
-/

namespace PivotOs

open Paging

namespace Loader

variable {pml4 : Word} {s next : Loader}

/-- The highest address of the loop of `ParseMMAP`. -/
theorem newMaxAddr_le
    {map : MemoryMap} {entries first : Nat} {maxAddr : Word} :
    maxAddr ≤ (mapDescriptors map pml4 entries (first * map.mmapDescSize)
        maxAddr s).1 ∧
      ∀ i, first ≤ i → i < first + entries → newMaxAddr (map.desc i) ≤
        (mapDescriptors map pml4 entries (first * map.mmapDescSize)
          maxAddr s).1 := by
  induction entries generalizing first maxAddr s with
  | zero => exact ⟨BitVec.le_refl _, fun i after before => by omega⟩
  | succ entries inductionHypothesis =>
      obtain ⟨higher, later⟩ := @inductionHypothesis
        (mapDescriptor (map.desc first) pml4 s) (first + 1)
        (if maxAddr < newMaxAddr (map.desc first) then
          newMaxAddr (map.desc first) else maxAddr)
      rw [mapDescriptors, ← Nat.succ_mul]
      have both : maxAddr ≤ (if maxAddr < newMaxAddr (map.desc first) then
            newMaxAddr (map.desc first) else maxAddr) ∧
          newMaxAddr (map.desc first) ≤
            (if maxAddr < newMaxAddr (map.desc first) then
              newMaxAddr (map.desc first) else maxAddr) := by
        simp only [BitVec.le_def, BitVec.lt_def]
        split
        · omega
        · omega
      refine ⟨BitVec.le_trans both.1 higher, fun i after before => ?_⟩
      rcases Nat.eq_or_lt_of_le after with rfl | behind
      · exact BitVec.le_trans both.2 higher
      · exact later i behind (by omega)

/-- `mem_pages` counts every frame of the memory map. -/
theorem lt_memPages
    {map : MemoryMap} {bitmap : Word} {i frame : Nat}
    (loadable : map.Loadable)
    (inside : i < map.entries)
    (covers : (map.desc i).Covers frame) :
    frame < (parseMmap map pml4 bitmap s).2.1.memPages := by
  have aligned := loadable.aligned i inside
  have low := loadable.low i inside
  have highest := (@newMaxAddr_le pml4 s map map.entries 0 0#64).2 i
    (Nat.zero_le i) (by omega)
  have stop : (newMaxAddr (map.desc i)).toNat =
      (map.desc i).physicalStart.toNat + (map.desc i).count.toNat * 4096 := by
    rw [newMaxAddr, BitVec.toNat_add, BitVec.toNat_mul, BitVec.toNat_ofNat,
      pageSize]
    omega
  rw [Nat.zero_mul, BitVec.le_def, stop] at highest
  have before := covers.2
  have counted : (parseMmap map pml4 bitmap s).2.1.memPages =
    (mapDescriptors map pml4 map.entries 0 0#64 s).1.toNat / 4096 := rfl
  rw [frameOf, pageSize] at before
  rw [counted]
  omega

/-- A new table is one that was handed out and is not handed out again. -/
theorem Grew.taken
    {tables : List Word} {touched : Set Nat} {table : Word}
    (grew : Grew pml4 tables touched s next)
    (isTable : next.IsTable pml4 table) :
    s.IsTable pml4 table ∨ some table ∈ s.pages ∧ some table ∉ next.pages :=
  ((grew.isTable_iff table).mp isTable).imp_right fun new =>
    ⟨grew.listed table new, grew.not_listed new⟩

theorem configurePaging_taken
    {table : Word}
    (firmware : s.Firmware pml4)
    (isTable : (configurePaging pml4 s).2.IsTable pml4 table) :
    table = pml4 ∨
      some table ∈ s.pages ∧
        some table ∉ (configurePaging pml4 s).2.pages := by
  obtain ⟨tables, grew⟩ :=
    (mapAddr_maps firmware.sound_cleared pml4 pml4).grew
  exact (grew.taken isTable).imp_left
    (RadixTree.member_of_cleared (cleared_root s pml4))

theorem configurePaging_fewer (firmware : s.Firmware pml4) :
    (configurePaging pml4 s).2.pages.Sublist s.pages := by
  obtain ⟨tables, grew⟩ :=
    (mapAddr_maps firmware.sound_cleared pml4 pml4).grew
  exact grew.fewer

end Loader

/-- The tables that the kernel goes on with are the root and pages that were
handed out. -/
theorem Stages.taken
    {services : EfiServices} {s loaded : Boot} {stacked final : Loader}
    {info : MemInfo} {table : Word}
    (stages : Stages services
      (Loader.configurePaging services.pml4 s.loader).2 loaded stacked info final)
    (firmware : s.loader.Firmware services.pml4)
    (isTable : final.IsTable services.pml4 table) :
    table = services.pml4 ∨
      some table ∈ s.loader.pages ∧ some table ∉ final.pages := by
  have fewer := Loader.configurePaging_fewer firmware
  obtain ⟨_, grew1⟩ := stages.finished.grew
  obtain ⟨_, grew2⟩ := stages.grew
  obtain ⟨_, grew3⟩ := stages.low
  rcases grew3.taken isTable with isTable | ⟨listed, gone⟩
  · rcases grew2.taken isTable with isTable | ⟨listed, gone⟩
    · rcases grew1.taken isTable with isTable | ⟨listed, gone⟩
      · rcases Loader.configurePaging_taken firmware isTable with
          root | ⟨listed, gone⟩
        · exact .inl root
        · exact .inr ⟨listed, fun again => gone (grew1.fewer.subset
            (grew2.fewer.subset (grew3.fewer.subset again)))⟩
      · exact .inr ⟨fewer.subset listed, fun again => gone
          (grew2.fewer.subset (grew3.fewer.subset again))⟩
    · exact .inr ⟨fewer.subset (grew1.fewer.subset listed), fun again =>
        gone (grew3.fewer.subset again)⟩
  · exact .inr ⟨fewer.subset (grew1.fewer.subset (grew2.fewer.subset listed)),
      gone⟩

/-! ## What the firmware has handed out -/

/-- The frame was handed out to the loader by the time that it calls the
kernel. -/
inductive EfiServices.HandedOut (services : EfiServices) (s : Boot)
    (h : Handover) : Nat → Prop
  /-- The root of the page tables. -/
  | root : HandedOut services s h (frameOf services.pml4)
  /-- Another page table. -/
  | table {table : Word}
      (listed : some table ∈ s.loader.pages)
      (gone : some table ∉ h.boot.loader.pages) :
      HandedOut services s h (frameOf table)
  /-- A page of a segment. -/
  | segment {k frame : Nat} {header : Elf64Phdr}
      (load : services.file.loads[k]? = some header)
      (covers : AreaCovers (services.area k) header.numPages frame) :
      HandedOut services s h frame
  /-- A page with a part of the array of kernel entries. -/
  | entries {j : Nat} (below : j < services.keLength) :
      HandedOut services s h (frameOf (services.keByte j))
  /-- The stack. -/
  | stack : HandedOut services s h (frameOf services.stack)
  /-- A page of the bitmap. -/
  | bitmap {frame : Nat}
      (covers : AreaCovers services.bitmap h.info.mem.bitmapSize frame) :
      HandedOut services s h frame

/-- What the memory maps say: the second one has no other memory than the first,
and lists what was handed out as in use. -/
structure EfiServices.Reserves (services : EfiServices) (s : Boot)
    (h : Handover) : Prop where
  /-- No memory is added. -/
  covered : ∀ i frame, i < (services.memoryMap 1).entries →
    ((services.memoryMap 1).desc i).Covers frame →
      ∃ j, j < (services.memoryMap 0).entries ∧
        ((services.memoryMap 0).desc j).Covers frame
  /-- What was handed out was memory. -/
  memory : ∀ frame, services.HandedOut s h frame →
    ∃ j, j < (services.memoryMap 0).entries ∧
      ((services.memoryMap 0).desc j).Covers frame
  /-- It is not free any more. -/
  reserved : ∀ frame, services.HandedOut s h frame →
    ¬ (services.memoryMap 1).Clears frame
  /-- The second map can be mapped as well. -/
  loadable : (services.memoryMap 1).Loadable
  /-- The root is a page. -/
  root : Loader.LowPage services.pml4
  /-- It is not null. -/
  root_ne_zero : services.pml4 ≠ 0#64

namespace Boot

variable {services : EfiServices} {s : Boot} {h : Handover}
  {stacked : Loader} {info : MemInfo}

/-- What `ParseMMAP` stores fits the map that the kernel gets. -/
theorem exists_bootMemory
    (honest : services.Honest s)
    (reserves : services.Reserves s h)
    (parsed : (Loader.parseMmap (services.memoryMap 0) services.pml4
      services.bitmap stacked).2.1 = info)
    (rows : (info.memPages + 63) / 64 ≤ 65535)
    (prior : Nat → Word) :
    ∃ boot : BootMemory, boot.map = services.memoryMap 1 ∧
      boot.memPages = info.memPages ∧ boot.blank prior = info.pmm prior := by
  have inside : ∀ i, i < (services.memoryMap 1).entries →
      ((services.memoryMap 1).desc i).physicalStart.toNat +
        ((services.memoryMap 1).desc i).count.toNat * 4096 ≤
          info.memPages * 4096 := by
    intro i listed
    have aligned := reserves.loadable.aligned i listed
    have positive : ((services.memoryMap 1).desc i).count.toNat ≠ 0 :=
      fun zero => reserves.loadable.nonempty i listed
        (BitVec.eq_of_toNat_eq zero)
    -- The last frame lies in the first map.
    obtain ⟨j, before, covers⟩ := reserves.covered i
      (frameOf ((services.memoryMap 1).desc i).physicalStart +
        (((services.memoryMap 1).desc i).count.toNat - 1)) listed
      ⟨Nat.le_add_right _ _, by omega⟩
    have last := @Loader.lt_memPages services.pml4 stacked _ services.bitmap j _
      honest.loadable before covers
    rw [parsed, frameOf, pageSize] at last
    omega
  refine ⟨⟨services.memoryMap 1, info.memPages, reserves.loadable.aligned,
    inside, rows⟩, rfl, rfl, ?_⟩
  have counted : info.bitmapEntries = (info.memPages + 63) / 64 := by
    rw [← parsed]
    refine MemInfo.stored_bitmapEntries services.bitmap ?_
    have small := (Loader.mapDescriptors (services.memoryMap 0) services.pml4
      ((services.memoryMap 0).mmapSize / (services.memoryMap 0).mmapDescSize) 0
      0#64 stacked).1.isLt
    rw [pageSize]
    omega
  rw [BootMemory.blank, MemInfo.pmm, counted]

/-- The bits of what was handed out stay set. -/
theorem used_of_handedOut
    {boot : BootMemory} {prior : Nat → Word} {state : Pmm.Holders}
    {frame : Nat}
    (honest : services.Honest s)
    (reserves : services.Reserves s h)
    (parsed : (Loader.parseMmap (services.memoryMap 0) services.pml4
      services.bitmap stacked).2.1 = info)
    (map_eq : boot.map = services.memoryMap 1)
    (memPages_eq : boot.memPages = info.memPages)
    (reachable : Pmm.Holders.Reachable boot prior state)
    (handed : services.HandedOut s h frame) :
    state.pmm.Used frame := by
  have inv := reachable.inv
  obtain ⟨j, before, covers⟩ := reserves.memory frame handed
  have small := @Loader.lt_memPages services.pml4 stacked _ services.bitmap j _
    honest.loadable before covers
  rw [parsed, ← memPages_eq] at small
  by_contra unused
  refine reserves.reserved frame handed (map_eq ▸ inv.free_cleared frame ?_)
  refine ⟨?_, unused⟩
  rw [inv.entries_eq, Pmm.bitmapRowBits_eq]
  omega

/-- From `init_pmm` on, whatever the kernel does with frames, its page tables are a
tree in frames in use, and what the loader got is never returned by
`alloc_frame`. -/
theorem kernel_starts
    (services : EfiServices) (s : Boot) (h : Handover) (prior : Nat → Word)
    (file : WellFormed services.file)
    (honest : services.Honest s)
    (reserves : services.Reserves s h)
    (ran : efiMain services s = some h)
    (fits : services.bitmap.toNat + h.info.mem.bitmapSize * 4096 ≤ 2 ^ 47)
    (enough : h.boot.loader.failures = s.loader.failures)
    (rows : (h.info.mem.memPages + 63) / 64 ≤ 65535) :
    ∃ boot : BootMemory, boot.map = h.info.mmap ∧
      boot.blank prior = h.info.mem.pmm prior ∧
      ∀ state, Pmm.Holders.Reachable boot prior state →
        (h.boot.loader.machine h.cr3 state.pmm).Tree h.cr3 ∧
        state.pmm.Marks ∧
        ∀ frame, services.HandedOut s h frame → state.pmm.Used frame ∧
          ∀ address ∈ state.held, frameOf address ≠ frame := by
  obtain ⟨⟨found, loaded⟩, prepared, ran⟩ := Option.bind_eq_some_iff.mp ran
  obtain ⟨⟨⟨map, info⟩, last⟩, finished, rfl⟩ := Option.map_eq_some_iff.mp ran
  obtain ⟨stacked, stages⟩ :=
    stages_of_run file honest prepared finished fits enough
  obtain ⟨-, -, rfl, -, -⟩ := finish_spec finished
  have parsed := congrArg (fun result => result.2.1) stages.parsed
  obtain ⟨boot, map_eq, memPages_eq, blank_eq⟩ :=
    exists_bootMemory honest reserves parsed rows prior
  refine ⟨boot, map_eq, blank_eq, fun state reachable => ?_⟩
  obtain ⟨_, grew⟩ := stages.low
  refine ⟨?_, reachable.inv.marks, fun frame handed => ⟨?_, ?_⟩⟩
  · exact
      { distinct := grew.sound.distinct
        used := fun table isTable => by
          refine used_of_handedOut honest reserves parsed map_eq memPages_eq
            reachable ?_
          rcases stages.taken honest.firmware isTable with rfl | ⟨listed, gone⟩
          · exact .root
          · exact .table listed gone
        root_aligned := reserves.root.aligned
        root_ne_zero := reserves.root_ne_zero }
  · exact used_of_handedOut honest reserves parsed map_eq memPages_eq
      reachable handed
  · rintro address held rfl
    exact reserves.reserved _ handed
      (map_eq ▸ reachable.inv.held_cleared address held)

end Boot
end PivotOs

/-! ## A sample -/

namespace PivotOs

/-- Some free memory, and then the pages for the tables, the root, the array of
kernel entries, the two segments, the stack and the bitmap. -/
def sampleAreas : List (Word × Word) :=
  [(0x1000#64, 3#64), (0x100000#64, 16#64), (0x200000#64, 1#64),
    (0x300000#64, 1#64), (0x400000#64, 1#64), (0x410000#64, 2#64),
    (0x500000#64, 1#64), (0x600000#64, 1#64)]

/-- The areas of the sample, all but the first of the given type. -/
def sampleAreaMap (type : BitVec 32) : MemoryMap where
  descAt := fun offset =>
    let area := sampleAreas.getD (offset / 48) (0#64, 0#64)
    { type := if offset = 0 then 7#32 else type
      physicalStart := area.1
      count := area.2 }
  mmapSize := 384
  mmapDescSize := 48

/-- First the memory is free, then it is the loader's. -/
def sampleAreaEfi : EfiServices :=
  { sampleEfi with
    memoryMap := fun time => sampleAreaMap (if time = 0 then 7#32 else 2#32) }

theorem sampleAreaMap_entries (type : BitVec 32) :
    (sampleAreaMap type).entries = 8 := by
  simp [MemoryMap.entries, sampleAreaMap]

theorem sampleAreaMap_disjoint
    {type : BitVec 32} {i j k : Nat}
    (iInside : i < (sampleAreaMap type).entries)
    (jInside : j < (sampleAreaMap type).entries)
    (iCovers : ((sampleAreaMap type).desc i).Covers k)
    (jCovers : ((sampleAreaMap type).desc j).Covers k) :
    i = j := by
  have apart : ∀ i < 8, ∀ j < 8, i ≠ j →
      frameOf ((sampleAreaMap 7#32).desc i).physicalStart +
          ((sampleAreaMap 7#32).desc i).count.toNat ≤
        frameOf ((sampleAreaMap 7#32).desc j).physicalStart ∨
      frameOf ((sampleAreaMap 7#32).desc j).physicalStart +
          ((sampleAreaMap 7#32).desc j).count.toNat ≤
        frameOf ((sampleAreaMap 7#32).desc i).physicalStart := by decide
  by_contra different
  rw [sampleAreaMap_entries] at iInside jInside
  rcases apart i iInside j jInside different with before | before
  · exact absurd (lt_of_lt_of_le iCovers.2 before) (Nat.not_lt.mpr jCovers.1)
  · exact absurd (lt_of_lt_of_le jCovers.2 before) (Nat.not_lt.mpr iCovers.1)

theorem sampleAreaMap_loadable
    {type : BitVec 32}
    (small : type.toNat < 256) :
    (sampleAreaMap type).Loadable where
  aligned := by
    have all : ∀ i < 8,
        ((sampleAreaMap 7#32).desc i).physicalStart.toNat % 4096 = 0 := by decide
    exact fun i inside => all i (sampleAreaMap_entries type ▸ inside)
  nonempty := by
    have all : ∀ i < 8, ((sampleAreaMap 7#32).desc i).count ≠ 0#64 := by decide
    exact fun i inside => all i (sampleAreaMap_entries type ▸ inside)
  low := by
    have all : ∀ i < 8, ((sampleAreaMap 7#32).desc i).physicalStart.toNat +
        ((sampleAreaMap 7#32).desc i).count.toNat * 4096 ≤ 2 ^ 47 := by decide
    exact fun i inside => all i (sampleAreaMap_entries type ▸ inside)
  disjoint := fun _ _ _ => sampleAreaMap_disjoint
  types := by
    intro i inside
    simp only [MemoryMap.desc, sampleAreaMap]
    split
    · decide
    · exact small

theorem sampleAreaEfi_honest : sampleAreaEfi.Honest sampleStart :=
  { sampleEfi_honest with
    loadable := sampleAreaMap_loadable (by decide)
    kept := fun i frame inside _ covers => by
      refine ⟨i, inside, ?_, covers⟩
      have all : ∀ i < 8, ((sampleAreaMap 7#32).desc i).Kept := by decide
      exact all i (sampleAreaMap_entries _ ▸ inside) }

/-- What the sample hands out lies in an area behind the first. -/
theorem sampleAreaEfi_handedOut
    {h : Handover} {frame : Nat}
    (size : h.info.mem.bitmapSize = 1)
    (handed : sampleAreaEfi.HandedOut sampleStart h frame) :
    ∃ i, i < 7 ∧ ((sampleAreaMap 2#32).desc (i + 1)).Covers frame := by
  cases handed with
  | root => exact ⟨1, by decide, by decide, by decide⟩
  | table listed _ =>
      obtain ⟨i, below, eq⟩ := List.mem_map.mp listed
      obtain rfl := Option.some.inj eq
      have small := List.mem_range.mp below
      refine ⟨0, by decide, ?_, ?_⟩
      · show 0x100 ≤ _
        rw [frameOf, BitVec.toNat_ofNat, pageSize]
        omega
      · show _ < 0x110
        rw [frameOf, BitVec.toNat_ofNat, pageSize]
        omega
  | segment load covers =>
      rcases sampleFile_load_cases load with ⟨rfl, rfl⟩ | ⟨rfl, rfl⟩
      · exact ⟨3, by decide, covers⟩
      · exact ⟨4, by decide, covers⟩
  | @entries j below =>
      have short : j < 48 := below
      have address : (sampleAreaEfi.keByte j).toNat = 0x300010 + j := by
        show (0x300010#64 + BitVec.ofNat 64 j).toNat = _
        rw [BitVec.toNat_add, BitVec.toNat_ofNat, BitVec.toNat_ofNat]
        omega
      refine ⟨2, by decide, ?_, ?_⟩
      · show 0x300 ≤ _
        rw [frameOf, address, pageSize]
        omega
      · show _ < 0x301
        rw [frameOf, address, pageSize]
        omega
  | stack => exact ⟨5, by decide, by decide, by decide⟩
  | bitmap covers =>
      rw [size] at covers
      exact ⟨6, by decide, covers⟩

theorem sampleAreaEfi_reserves
    {h : Handover}
    (size : h.info.mem.bitmapSize = 1) :
    sampleAreaEfi.Reserves sampleStart h where
  covered := fun i _ inside covers => ⟨i, inside, covers⟩
  memory := fun frame handed => by
    obtain ⟨i, inside, covers⟩ := sampleAreaEfi_handedOut size handed
    exact ⟨i + 1, sampleAreaMap_entries _ ▸ Nat.succ_lt_succ inside, covers⟩
  reserved := by
    rintro frame handed ⟨j, before, usable, coversToo⟩
    obtain ⟨i, inside, covers⟩ := sampleAreaEfi_handedOut size handed
    have same := sampleAreaMap_disjoint
      (sampleAreaMap_entries _ ▸ Nat.succ_lt_succ inside) before covers coversToo
    have all : ∀ i < 7, ¬ ((sampleAreaMap 2#32).desc (i + 1)).Usable := by decide
    exact all i inside (same ▸ usable)
  loadable := sampleAreaMap_loadable (by decide)
  root := ⟨by decide, by decide⟩
  root_ne_zero := by decide

theorem kernel_starts_sample :
    ∃ h, Boot.efiMain sampleAreaEfi sampleStart = some h ∧
      ∃ boot : BootMemory, boot.map = h.info.mmap ∧
        boot.blank (fun _ => 0#64) = h.info.mem.pmm (fun _ => 0#64) ∧
        ∀ state, Pmm.Holders.Reachable boot (fun _ => 0#64) state →
          (h.boot.loader.machine h.cr3 state.pmm).Tree h.cr3 ∧
          state.pmm.Marks ∧
          ∀ frame, sampleAreaEfi.HandedOut sampleStart h frame →
            state.pmm.Used frame ∧
              ∀ address ∈ state.held, frameOf address ≠ frame := by
  have observed : (Boot.efiMain sampleAreaEfi sampleStart).map (fun h =>
      (h.info.mem.bitmapSize, h.info.mem.memPages, h.boot.loader.failures)) =
        some (1, 0x601, 0) := by
    decide +kernel
  obtain ⟨h, ran, facts⟩ := Option.map_eq_some_iff.mp observed
  obtain ⟨size, rest⟩ := Prod.mk.inj facts
  obtain ⟨pages, enough⟩ := Prod.mk.inj rest
  refine ⟨h, ran, ?_⟩
  exact Boot.kernel_starts sampleAreaEfi sampleStart h (fun _ => 0#64)
    sampleFile_wellFormed sampleAreaEfi_honest (sampleAreaEfi_reserves size) ran
    (by rw [size]; decide) enough (by rw [pages]; decide)

end PivotOs
