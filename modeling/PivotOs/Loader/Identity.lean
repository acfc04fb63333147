import PivotOs.Acpi.Reclaim
import PivotOs.Library.Runs
import PivotOs.Loader.MapAddr
import PivotOs.Pmm.Usable

/-!
# Frames at their own addresses

`ParseMMAP` maps the pages of every descriptor that the kernel may ever free at
their own addresses.  `init_pmm` frees the descriptors of type 3, 4 and 7 and
`init_acpi` one of type 9, all of which `ParseMMAP` has mapped, page 0 apart.
So the kernel can use a frame that `alloc_frame` returns without mapping it.
-/

namespace PivotOs

open Paging

/-- Page-aligned descriptors below `2 ^ 47` that are not empty and do not
overlap, with types below 256. -/
structure MemoryMap.Loadable (map : MemoryMap) : Prop where
  /-- Descriptors start at pages. -/
  aligned : ∀ i, i < map.entries →
    (map.desc i).physicalStart.toNat % 4096 = 0
  /-- They have pages. -/
  nonempty : ∀ i, i < map.entries → (map.desc i).count ≠ 0#64
  /-- They end in the lower half. -/
  low : ∀ i, i < map.entries →
    (map.desc i).physicalStart.toNat + (map.desc i).count.toNat * 4096 ≤ 2 ^ 47
  /-- No frame lies in two descriptors. -/
  disjoint : ∀ i j k, i < map.entries → j < map.entries →
    (map.desc i).Covers k → (map.desc j).Covers k → i = j
  /-- Types are small. -/
  types : ∀ i, i < map.entries → (map.desc i).type.toNat < 256

namespace Loader

variable {pml4 : Word} {s next : Loader}

/-! ## The pages of a descriptor -/

/-- Pages of a range in the lower half. -/
theorem lowPage_pageAddress
    {start : Word} {count i : Nat}
    (aligned : start.toNat % 4096 = 0)
    (fits : start.toNat + count * 4096 ≤ 2 ^ 47)
    (below : i < count) :
    LowPage (Pmm.pageAddress start i) := by
  have address := (Pmm.frameOf_pageAddress (i := i) aligned (by omega)).1
  exact ⟨by omega, by omega⟩

/-- `MapRange` of pages at their own addresses. -/
theorem mapRange_identity
    (start : Word) (count : Nat)
    (sound : s.Sound pml4)
    (aligned : start.toNat % 4096 = 0)
    (fits : start.toNat + count * 4096 ≤ 2 ^ 47) :
    Extends pml4 s (mapRange start start pml4 count s).2 ∧
      ((mapRange start start pml4 count s).1 = .success → ∀ i, i < count →
        (mapRange start start pml4 count s).2.IdentityMapped pml4
          (Pmm.pageAddress start i)) := by
  induction count with
  | zero =>
      refine ⟨Extends.refl sound, ?_⟩
      intro _ i below
      omega
  | succ count inductionHypothesis =>
      have fewer : start.toNat + count * 4096 ≤ 2 ^ 47 :=
        (Nat.add_le_add_left (Nat.mul_le_mul_right 4096 count.le_succ) _).trans
          fits
      obtain ⟨extends1, mapped⟩ := inductionHypothesis fewer
      rw [mapRange]
      rcases before : mapRange start start pml4 count s with ⟨status, middle⟩
      rw [before] at extends1 mapped
      cases status with
      | error => exact ⟨extends1, fun wrong => by cases wrong⟩
      | success =>
          have lowPage := lowPage_pageAddress aligned fits (Nat.lt_succ_self _)
          obtain ⟨extends2, last⟩ := mapAddr_identity extends1.sound lowPage
          refine ⟨extends1.trans extends2, ?_⟩
          intro success i below
          cases Nat.lt_succ_iff_lt_or_eq.mp below with
          | inl earlier =>
              exact extends2.identity _
                (lowPage_pageAddress aligned fits below).low
                (mapped rfl i earlier)
          | inr same => exact same ▸ last success

/-- The frame at a page-aligned address lies in the area of a descriptor. -/
theorem exists_pageAddress_of_covers
    {desc : MmapDesc} {address : Word}
    (aligned : desc.physicalStart.toNat % 4096 = 0)
    (low : desc.physicalStart.toNat + desc.count.toNat * 4096 ≤ 2 ^ 47)
    (addressAligned : address.toNat % 4096 = 0)
    (covers : desc.Covers (frameOf address)) :
    ∃ i, i < desc.count.toNat ∧
      address = Pmm.pageAddress desc.physicalStart i := by
  simp only [MmapDesc.Covers, frameOf, pageSize] at covers
  refine ⟨address.toNat / 4096 - desc.physicalStart.toNat / 4096, by omega, ?_⟩
  apply BitVec.eq_of_toNat_eq
  rw [(Pmm.frameOf_pageAddress aligned (by omega)).1]
  omega

/-- Pages of a range that starts at 0, page 0 apart, are those of a range that
starts at page 1. -/
theorem pageAddress_zero_eq
    {i : Nat}
    (positive : i ≠ 0)
    (small : i * 4096 < 2 ^ 64) :
    Pmm.pageAddress 0#64 i =
      Pmm.pageAddress (BitVec.ofNat 64 pageSize) (i - 1) := by
  have start : (BitVec.ofNat 64 pageSize).toNat = 4096 := by decide
  have zero : (0#64).toNat = 0 := rfl
  apply BitVec.eq_of_toNat_eq
  rw [(Pmm.frameOf_pageAddress (by rw [zero]) (by rw [zero]; omega)).1,
    (Pmm.frameOf_pageAddress (by rw [start]) (by rw [start]; omega)).1,
    start, zero]
  omega

/-- The frames of a descriptor are mapped at their own addresses, page 0
apart. -/
def MapsDescriptor (s : Loader) (pml4 : Word) (desc : MmapDesc) : Prop :=
  ∀ address : Word, address.toNat % 4096 = 0 → address ≠ 0#64 →
    desc.Covers (frameOf address) → s.IdentityMapped pml4 address

theorem Extends.mapsDescriptor
    {desc : MmapDesc}
    (extended : Extends pml4 s next)
    (aligned : desc.physicalStart.toNat % 4096 = 0)
    (low : desc.physicalStart.toNat + desc.count.toNat * 4096 ≤ 2 ^ 47)
    (maps : s.MapsDescriptor pml4 desc) :
    next.MapsDescriptor pml4 desc := by
  intro address addressAligned notNull covers
  obtain ⟨i, below, eq⟩ :=
    exists_pageAddress_of_covers aligned low addressAligned covers
  have page := lowPage_pageAddress aligned low below
  rw [← eq] at page
  exact extended.identity address page.low
    (maps address addressAligned notNull covers)

/-- The body of the loop of `ParseMMAP` maps a kept descriptor. -/
theorem mapDescriptor_identity
    {desc : MmapDesc}
    (sound : s.Sound pml4)
    (aligned : desc.physicalStart.toNat % 4096 = 0)
    (nonempty : desc.count ≠ 0#64)
    (low : desc.physicalStart.toNat + desc.count.toNat * 4096 ≤ 2 ^ 47) :
    Extends pml4 s (mapDescriptor desc pml4 s) ∧
      s.failures ≤ (mapDescriptor desc pml4 s).failures ∧
      ((mapDescriptor desc pml4 s).failures = s.failures → desc.Kept →
        (mapDescriptor desc pml4 s).MapsDescriptor pml4 desc) := by
  rw [mapDescriptor]
  split
  · split
    · rename_i null
      have fewer : (desc.count - 1#64).toNat + 1 = desc.count.toNat := by
        have positive : desc.count.toNat ≠ 0 := fun zero =>
          nonempty (BitVec.eq_of_toNat_eq zero)
        have small := desc.count.isLt
        rw [BitVec.toNat_sub]
        simp only [BitVec.toNat_ofNat]
        omega
      have start : (BitVec.ofNat 64 pageSize).toNat = 4096 := by decide
      obtain ⟨extended, mapped⟩ := mapRange_identity
        (BitVec.ofNat 64 pageSize) (desc.count - 1#64).toNat sound
        (by rw [start]) (by rw [start]; omega)
      have counts := @mapRange_counts pml4 s (BitVec.ofNat 64 pageSize)
        (BitVec.ofNat 64 pageSize) (desc.count - 1#64).toNat
      refine ⟨extended, counts.failures_le, ?_⟩
      intro enough _ address addressAligned notNull covers
      obtain ⟨i, below, rfl⟩ :=
        exists_pageAddress_of_covers aligned low addressAligned covers
      have positive : i ≠ 0 := by
        rintro rfl
        apply notNull
        rw [null]
        rfl
      rw [null, pageAddress_zero_eq positive (by omega)]
      exact mapped (counts.success enough) (i - 1) (by omega)
    · obtain ⟨extended, mapped⟩ := mapRange_identity _ _ sound aligned low
      have counts := @mapRange_counts pml4 s desc.physicalStart
        desc.physicalStart desc.count.toNat
      refine ⟨extended, counts.failures_le, ?_⟩
      intro enough _ address addressAligned _ covers
      obtain ⟨i, below, rfl⟩ :=
        exists_pageAddress_of_covers aligned low addressAligned covers
      exact mapped (counts.success enough) i below
  · rename_i skipped
    exact ⟨Extends.refl sound, le_rfl, fun _ kept => absurd kept skipped⟩

/-- The loop of `ParseMMAP`, from the descriptor `first` on. -/
theorem mapDescriptors_identity
    {map : MemoryMap} {entries first : Nat} {maxAddr : Word}
    (loadable : map.Loadable)
    (inside : first + entries ≤ map.entries)
    (sound : s.Sound pml4)
    (walked : (mapDescriptors map pml4 entries (first * map.mmapDescSize)
      maxAddr s).2 = next) :
    Extends pml4 s next ∧ s.failures ≤ next.failures ∧
      (next.failures = s.failures → ∀ i, first ≤ i → i < first + entries →
        (map.desc i).Kept → next.MapsDescriptor pml4 (map.desc i)) := by
  induction entries generalizing first maxAddr s with
  | zero =>
      obtain rfl := walked
      refine ⟨Extends.refl sound, le_rfl, ?_⟩
      intro _ i after before
      omega
  | succ entries inductionHypothesis =>
      have here : first < map.entries := by omega
      have aligned := loadable.aligned first here
      have low := loadable.low first here
      obtain ⟨extends1, failures1, mapped⟩ := mapDescriptor_identity sound
        aligned (loadable.nonempty first here) low
      rw [mapDescriptors, ← Nat.succ_mul] at walked
      obtain ⟨extends2, failures2, later⟩ :=
        inductionHypothesis (by omega) extends1.sound walked
      refine ⟨extends1.trans extends2, failures1.trans failures2, ?_⟩
      intro enough i after before kept
      have middle : (mapDescriptor (map.desc first) pml4 s).failures =
          s.failures := le_antisymm (failures2.trans enough.le) failures1
      cases Nat.eq_or_lt_of_le after with
      | inl same =>
          subst same
          exact extends2.mapsDescriptor aligned low (mapped middle kept)
      | inr behind =>
          exact later (enough.trans middle.symm) i behind (by omega) kept

/-- When no allocation fails, `ParseMMAP` maps every kept descriptor. -/
theorem parseMmap_identity
    {map : MemoryMap} {bitmap : Word} {status : EfiStatus} {info : MemInfo}
    (loadable : map.Loadable)
    (sound : s.Sound pml4)
    (ran : parseMmap map pml4 bitmap s = (status, info, next))
    (aligned : bitmap.toNat % 4096 = 0)
    (fits : bitmap.toNat + info.bitmapSize * 4096 ≤ 2 ^ 47)
    (enough : next.failures = s.failures)
    {i : Nat}
    (inside : i < map.entries)
    (kept : (map.desc i).Kept) :
    next.MapsDescriptor pml4 (map.desc i) := by
  have start : (0 : Nat) = 0 * map.mmapDescSize := (Nat.zero_mul _).symm
  rw [parseMmap] at ran
  generalize walk : mapDescriptors map pml4 (map.mmapSize / map.mmapDescSize) 0
    0#64 s = walked at ran
  rw [start] at walk
  obtain ⟨status_eq, rest⟩ := Prod.mk.inj ran
  obtain ⟨rfl, rfl⟩ := Prod.mk.inj rest
  obtain ⟨extends1, failures1, mapped⟩ := mapDescriptors_identity loadable
    (by rw [Nat.zero_add]; exact le_rfl) sound (congrArg Prod.snd walk)
  obtain ⟨extends2, -⟩ := mapRange_identity _ _ extends1.sound aligned fits
  have middle : walked.2.failures = s.failures :=
    le_antisymm ((mapRange_counts _ _ _ _).failures_le.trans enough.le)
      failures1
  refine extends2.mapsDescriptor (loadable.aligned i inside)
    (loadable.low i inside) ?_
  exact mapped middle i (Nat.zero_le i) (by rw [Nat.zero_add]; exact inside) kept

/-! ## From the firmware to `ParseMMAP` -/

/-- What the firmware promises: `AllocatePages` answers with pages, none of
them twice and none of them the root. -/
structure Firmware (pml4 : Word) (s : Loader) : Prop where
  /-- The answers are pages. -/
  paged : ∀ table, some table ∈ s.pages → LowPage table
  /-- The root is not handed out again. -/
  fresh : some pml4 ∉ s.pages
  /-- No page is handed out twice. -/
  once : s.pages.reduceOption.Nodup

/-- The calls of `MapAddr` between `ConfigurePaging` and `ParseMMAP`. -/
def mapAll (pml4 : Word) : List (Word × Word) → Loader → Loader
  | [], s => s
  | call :: calls, s =>
      mapAll pml4 calls (mapAddr call.1 call.2 pml4 s).2

theorem cleared_root (s : Loader) (pml4 : Word) (index : Fin 512) :
    RadixTree.clear tableLinks s.tables pml4 pml4 index =
      tableLinks.blank := by
  simp [RadixTree.clear]

theorem Firmware.sound_cleared (firmware : s.Firmware pml4) :
    Sound pml4
      { s with tables := RadixTree.clear tableLinks s.tables pml4 } := by
  have cleared := cleared_root s pml4
  exact
    { distinct := RadixTree.Distinct.of_cleared cleared
      paged := firmware.paged
      unseen := fun table listed member =>
        firmware.fresh (RadixTree.member_of_cleared cleared member ▸ listed)
      once := firmware.once }

theorem configurePaging_sound (firmware : s.Firmware pml4) :
    (configurePaging pml4 s).2.Sound pml4 :=
  mapAddr_sound firmware.sound_cleared pml4 pml4

/-- After `ConfigurePaging` the tables are the root and pages of the
firmware. -/
theorem configurePaging_isTable
    {table : Word}
    (firmware : s.Firmware pml4)
    (known : (configurePaging pml4 s).2.IsTable pml4 table ∨
      some table ∈ (configurePaging pml4 s).2.pages) :
    table = pml4 ∨ some table ∈ s.pages := by
  have cleared := cleared_root s pml4
  obtain ⟨tables, grew⟩ :=
    (mapAddr_maps firmware.sound_cleared pml4 pml4).grew
  rcases known with isTable | listed
  · rcases (grew.isTable_iff table).mp isTable with old | new
    · exact Or.inl (RadixTree.member_of_cleared cleared old)
    · exact Or.inr (grew.listed table new)
  · exact Or.inr (grew.fewer.subset listed)

/-- `ConfigurePaging` maps nothing in the higher half. -/
theorem configurePaging_mmu_high
    {address : Word}
    (firmware : s.Firmware pml4)
    (root : LowPage pml4)
    (high : 2 ^ 35 ≤ pageOf address) :
    mmu (configurePaging pml4 s).2.tables pml4 address = none := by
  obtain ⟨tables, grew⟩ :=
    (mapAddr_maps firmware.sound_cleared pml4 pml4).grew
  have other : pageOf address ∉ ({pageOf pml4} : Set Nat) := by
    intro same
    have low := root.pageOf_lt
    rw [Set.mem_singleton_iff] at same
    omega
  have leaf := grew.leaf_high firmware.sound_cleared other high
  rw [configurePaging, mmu_eq, leaf, ← mmu_eq]
  exact RadixTree.nodeAt_of_cleared (cleared_root s pml4) _ _

theorem mapAll_sound
    (calls : List (Word × Word))
    (sound : s.Sound pml4) :
    (mapAll pml4 calls s).Sound pml4 := by
  induction calls generalizing s with
  | nil => exact sound
  | cons call calls inductionHypothesis =>
      exact inductionHypothesis (mapAddr_sound sound call.1 call.2)

/-- The machine that the kernel starts on. -/
def machine (s : Loader) (pml4 : Word) (pmm : Pmm) : Machine where
  tables := s.tables
  pmm := pmm
  pml4 := pml4
  cr3 := pml4
  allocs := []
  accesses := []

theorem IdentityMapped.translateAddr
    {address : Word}
    (mapped : s.IdentityMapped pml4 address)
    (pmm : Pmm) :
    (s.machine pml4 pmm).translateAddr address pml4 = alignAddr address := by
  have chosen : (if pml4 = 0#64 then (s.machine pml4 pmm).pml4 else pml4) =
      pml4 := ite_self pml4
  rw [Machine.translateAddr_eq_of_chosen address chosen]
  rw [IdentityMapped, mmu_eq] at mapped
  exact next_eq_some mapped

end Loader

/-! ## Frames of the kernel -/

/-- The bitmap, and every frame that `alloc_frame` has returned. -/
structure KernelFrames where
  /-- The bitmap. -/
  pmm : Pmm
  /-- The frames returned, newest first. -/
  returned : List Word

/-- What the kernel does with frames. -/
inductive KernelFrames.Call
  | alloc
  | giveBack (frame : Word)
  | mark (start : Word) (count : Nat)
  | reclaim

namespace KernelFrames

/-- Carry out one call.  Only frames that were returned are given back, and
`init_acpi` gets to its end with a map that has a descriptor of type 9. -/
def exec (map : MemoryMap) (s : KernelFrames) : Call → Option KernelFrames
  | .alloc =>
      s.pmm.allocFrame.map fun result =>
        { pmm := result.2
          returned :=
            if result.1 = 0#64 then s.returned else result.1 :: s.returned }
  | .giveBack frame =>
      if frame ∈ s.returned then
        some { s with pmm := s.pmm.pmmClearBit frame }
      else none
  | .mark start count =>
      some { s with pmm := s.pmm.pmmSetArea start count }
  | .reclaim =>
      if ∃ i, i < map.entries ∧ (map.desc i).type = 9#32 then
        some { s with pmm := s.pmm.reclaimAcpi map }
      else none

end KernelFrames

/-- Types below 256 are not changed by the narrowing in `init_pmm`. -/
theorem MmapDesc.Usable.kept
    {desc : MmapDesc}
    (usable : desc.Usable)
    (small : desc.type.toNat < 256) :
    desc.Kept := by
  have narrow : ∀ value : BitVec 8, desc.type.setWidth 8 = value →
      desc.type = value.setWidth 32 := by
    intro value same
    apply BitVec.eq_of_toNat_eq
    have bits := congrArg BitVec.toNat same
    rw [BitVec.toNat_setWidth] at bits ⊢
    omega
  rcases usable with three | four | seven
  · exact Or.inr (Or.inr (Or.inl (narrow _ three)))
  · exact Or.inr (Or.inr (Or.inr (Or.inl (narrow _ four))))
  · exact Or.inr (Or.inr (Or.inr (Or.inr (Or.inl (narrow _ seven)))))

namespace MemoryMap

variable {map : MemoryMap}

/-- Frame `k` lies in a descriptor that `ParseMMAP` maps. -/
def Keeps (map : MemoryMap) (k : Nat) : Prop :=
  ∃ i, i < map.entries ∧ (map.desc i).Kept ∧ (map.desc i).Covers k

/-- A descriptor that is freed by its area lies in the memory it covers. -/
theorem Loadable.covers
    {i k : Nat}
    (loadable : map.Loadable)
    (inside : i < map.entries)
    (frees : (map.desc i).Frees k) :
    (map.desc i).Covers k := by
  have low := loadable.low i inside
  exact ((MmapDesc.frees_iff (loadable.aligned i inside)
    (low.trans_lt (by decide)) k).mp frees).2

end MemoryMap

namespace KernelFrames

variable {map : MemoryMap} {s next last : KernelFrames}

/-- Clear bits and returned frames are those of descriptors that `ParseMMAP`
maps. -/
structure Inv (map : MemoryMap) (s : KernelFrames) : Prop where
  /-- Frames that may be returned. -/
  free : ∀ k, s.pmm.Free k → map.Keeps k
  /-- Frames that were returned. -/
  returned : ∀ frame ∈ s.returned, frame.toNat % 4096 = 0 ∧ frame ≠ 0#64 ∧
    map.Keeps (frameOf frame)

/-- The bitmap after `init_pmm`. -/
theorem inv_initPmm
    (loadable : map.Loadable) (m : Pmm) :
    Inv map { pmm := m.initPmm map, returned := [] } where
  free := by
    intro k free
    obtain ⟨inside, clear⟩ := free
    rw [Pmm.initPmm_bitmapEntries] at inside
    rw [Pmm.used_initPmm map inside, not_not] at clear
    obtain ⟨i, listed, usable, frees⟩ := clear
    exact ⟨i, listed, usable.kept (loadable.types i listed),
      loadable.covers listed frees⟩
  returned := by simp

/-- A bitmap with more bits set. -/
theorem Inv.marked
    {m : Pmm}
    (inv : Inv map s)
    (marked : s.pmm.Marked m) :
    Inv map { s with pmm := m } where
  free := fun k free => inv.free k (marked.free free)
  returned := inv.returned

/-- A bitmap with fewer bits set. -/
theorem Inv.cleared
    {m : Pmm}
    (inv : Inv map s)
    (clears : ∀ k, m.Free k → s.pmm.Free k ∨ map.Keeps k) :
    Inv map { s with pmm := m } where
  free := fun k free => (clears k free).elim (inv.free k) id
  returned := inv.returned

theorem Inv.alloc
    (inv : Inv map s)
    (stepped : s.exec map .alloc = some next) :
    Inv map next := by
  obtain ⟨⟨frame, m⟩, allocated, rfl⟩ := Option.map_eq_some_iff.mp stepped
  obtain ⟨rfl, rfl, -⟩ | taken := Pmm.allocFrame_cases allocated
  · exact inv
  · have marked := inv.marked taken.marked
    simp only [if_neg taken.ne_zero]
    exact
      { free := marked.free
        returned := List.forall_mem_cons.mpr
          ⟨⟨taken.aligned, taken.ne_zero, inv.free _ taken.free⟩,
            inv.returned⟩ }

theorem Inv.giveBack
    {frame : Word}
    (inv : Inv map s)
    (stepped : s.exec map (.giveBack frame) = some next) :
    Inv map next := by
  rw [KernelFrames.exec] at stepped
  split at stepped
  · rename_i listed
    obtain rfl := Option.some.inj stepped
    refine inv.cleared ?_
    intro k free
    obtain ⟨inside, clear⟩ := free
    rw [Pmm.pmmClearBit_bitmapEntries] at inside
    rw [Pmm.used_pmmClearBit, not_and_or, not_not] at clear
    cases clear with
    | inl before => exact Or.inl ⟨inside, before⟩
    | inr here => exact Or.inr (here.2 ▸ (inv.returned frame listed).2.2)
  · simp at stepped

/-- The descriptor that `init_acpi` finds in the map is one of type 9, which
`ParseMMAP` maps. -/
theorem Inv.reclaim
    (loadable : map.Loadable)
    (inv : Inv map s)
    (stepped : s.exec map .reclaim = some next) :
    Inv map next := by
  rw [KernelFrames.exec] at stepped
  split at stepped
  · rename_i some_acpi
    obtain rfl := Option.some.inj stepped
    obtain ⟨j, inside, desc_eq, nine⟩ := map.acpiDesc_of_exists some_acpi
    have kept : (map.desc j).Kept := by
      simp only [MmapDesc.Kept, nine]
      decide
    refine inv.cleared ?_
    intro k free
    obtain ⟨row, clear⟩ := free
    rw [Pmm.reclaimAcpi_bitmapEntries] at row
    rw [Pmm.used_reclaimAcpi, not_and_or, not_not] at clear
    cases clear with
    | inl before => exact Or.inl ⟨row, before⟩
    | inr reclaims =>
        have frees := reclaims.2
        rw [desc_eq] at frees
        exact Or.inr ⟨j, inside, kept, loadable.covers inside frees⟩
  · simp at stepped

theorem Inv.exec
    {call : Call}
    (loadable : map.Loadable)
    (inv : Inv map s)
    (stepped : s.exec map call = some next) :
    Inv map next := by
  cases call with
  | alloc => exact inv.alloc stepped
  | giveBack frame => exact inv.giveBack stepped
  | mark start count =>
      obtain rfl := Option.some.inj stepped
      exact inv.marked (Pmm.Marked.pmmSetArea s.pmm start count)
  | reclaim => exact inv.reclaim loadable stepped

end KernelFrames

/-- After `ConfigurePaging`, any calls of `MapAddr` and a `ParseMMAP` in which
every allocation succeeds, every frame that `alloc_frame` returns from
`init_pmm` on is mapped at its own address. -/
theorem returned_frames_identityMapped
    (map : MemoryMap) (start parsed : Loader) (pml4 bitmap : Word)
    (mappings : List (Word × Word)) (status : EfiStatus) (info : MemInfo)
    (prior : Nat → Word) (calls : List KernelFrames.Call) (last : KernelFrames)
    (loadable : map.Loadable)
    (firmware : start.Firmware pml4)
    (ran : Loader.parseMmap map pml4 bitmap
      (Loader.mapAll pml4 mappings (Loader.configurePaging pml4 start).2) =
        (status, info, parsed))
    (aligned : bitmap.toNat % 4096 = 0)
    (fits : bitmap.toNat + info.bitmapSize * 4096 ≤ 2 ^ 47)
    (enough : parsed.failures = (Loader.mapAll pml4 mappings
      (Loader.configurePaging pml4 start).2).failures)
    (used : Runs.run (KernelFrames.exec map)
      { pmm := (info.pmm prior).initPmm map, returned := [] } calls =
        some last) :
    ∀ frame ∈ last.returned,
      mmu parsed.tables pml4 frame = some frame ∧
        (parsed.machine pml4 last.pmm).translateAddr frame pml4 = frame := by
  intro frame returned
  have sound := Loader.mapAll_sound mappings
    (Loader.configurePaging_sound firmware)
  have inv := Runs.run_invariant (KernelFrames.Inv map)
    (fun _ _ _ inv stepped => inv.exec loadable stepped)
    (KernelFrames.inv_initPmm loadable (info.pmm prior)) used
  obtain ⟨frameAligned, notNull, i, inside, kept, covers⟩ :=
    inv.returned frame returned
  have mapped := Loader.parseMmap_identity loadable sound ran aligned fits
    enough inside kept frame frameAligned notNull covers
  have translated := mapped.translateAddr last.pmm
  rw [Loader.IdentityMapped] at mapped
  rw [alignAddr_of_aligned frameAligned] at mapped translated
  exact ⟨mapped, translated⟩

/-- Four pages of conventional memory and two of ACPI tables. -/
def sampleMap : MemoryMap where
  descAt := fun offset =>
    if offset = 0 then { type := 7#32, physicalStart := 0#64, count := 4#64 }
    else { type := 9#32, physicalStart := 0x4000#64, count := 2#64 }
  mmapSize := 96
  mmapDescSize := 48

theorem sampleMap_loadable : sampleMap.Loadable where
  aligned := by decide
  nonempty := by decide
  low := by decide
  disjoint := by
    intro i j k iInside jInside iCovers jCovers
    have first : (sampleMap.desc 0).Covers k → k < 4 :=
      fun covers => lt_of_lt_of_eq covers.2 (by decide)
    have second : (sampleMap.desc 1).Covers k → 4 ≤ k :=
      fun covers => le_of_eq_of_le (by decide) covers.1
    have two : sampleMap.entries = 2 := by decide
    rw [two] at iInside jInside
    by_contra different
    obtain ⟨rfl, rfl⟩ | ⟨rfl, rfl⟩ : i = 0 ∧ j = 1 ∨ i = 1 ∧ j = 0 := by omega
    · exact absurd (first iCovers) (Nat.not_lt.mpr (second jCovers))
    · exact absurd (first jCovers) (Nat.not_lt.mpr (second iCovers))
  types := by decide

/-- A firmware with sixteen pages from 1 MiB on. -/
def sampleLoader : Loader where
  tables := fun _ _ => 0#64
  pages := (List.range 16).map fun i =>
    some (BitVec.ofNat 64 (0x100000 + i * 4096))
  failures := 0

theorem sampleLoader_firmware : sampleLoader.Firmware 0x200000#64 where
  paged := by
    intro table member
    obtain ⟨i, below, eq⟩ := List.mem_map.mp member
    obtain rfl := Option.some.inj eq
    have small := List.mem_range.mp below
    constructor <;> rw [BitVec.toNat_ofNat] <;> omega
  fresh := by decide
  once := by decide

/-- The loader before `ParseMMAP`, with the boot stack in the higher half. -/
def loadedLoader : Loader :=
  Loader.mapAll 0x200000#64 [(0x300000#64, vaddr 0x300000#64)]
    (Loader.configurePaging 0x200000#64 sampleLoader).2

/-- Two frames, one of them given back, the ACPI tables, and three frames. -/
def sampleFrameCalls : List KernelFrames.Call :=
  [.alloc, .alloc, .giveBack 0x1000#64, .reclaim, .alloc, .alloc, .alloc]

theorem returned_frames_identityMapped_sample :
    ∃ status info parsed last,
      Loader.parseMmap sampleMap 0x200000#64 0x400000#64 loadedLoader =
        (status, info, parsed) ∧
      Runs.run (KernelFrames.exec sampleMap)
        { pmm := (info.pmm fun _ => 0#64).initPmm sampleMap, returned := [] }
        sampleFrameCalls = some last ∧
      last.returned =
        [0x4000#64, 0x3000#64, 0x1000#64, 0x2000#64, 0x1000#64] ∧
      ∀ frame ∈ last.returned,
        mmu parsed.tables 0x200000#64 frame = some frame ∧
          (parsed.machine 0x200000#64 last.pmm).translateAddr frame
            0x200000#64 = frame := by
  rcases parse : Loader.parseMmap sampleMap 0x200000#64 0x400000#64
    loadedLoader with ⟨status, info, parsed⟩
  have observed : (Loader.parseMmap sampleMap 0x200000#64 0x400000#64
        loadedLoader).2.1.bitmapSize = 1 ∧
      (Loader.parseMmap sampleMap 0x200000#64 0x400000#64
        loadedLoader).2.2.failures = loadedLoader.failures ∧
      (Runs.run (KernelFrames.exec sampleMap)
        { pmm := ((Loader.parseMmap sampleMap 0x200000#64 0x400000#64
            loadedLoader).2.1.pmm fun _ => 0#64).initPmm sampleMap
          returned := [] } sampleFrameCalls).map KernelFrames.returned =
        some [0x4000#64, 0x3000#64, 0x1000#64, 0x2000#64, 0x1000#64] := by
    decide +kernel
  rw [parse] at observed
  obtain ⟨size, enough, frames⟩ := observed
  obtain ⟨last, used, returned⟩ := Option.map_eq_some_iff.mp frames
  refine ⟨status, info, parsed, last, rfl, used, returned, ?_⟩
  refine returned_frames_identityMapped sampleMap sampleLoader parsed
    0x200000#64 0x400000#64 [(0x300000#64, vaddr 0x300000#64)] status info _
    sampleFrameCalls last sampleMap_loadable sampleLoader_firmware parse
    (by decide) ?_ enough used
  rw [size]
  decide

end PivotOs
