import PivotOs.Loader.Segments

/-!
# The array of kernel entries in the higher half

Before it loads the segments, `LoadKernel` maps the array of kernel entries at
its address in the higher half.  The first page comes from the address of the
array, rounded down, but the number of pages comes from its length alone.  So
the end of the array stays unmapped when the array starts late in a page, and
what is mapped is seen by the kernel unless a segment is mapped over it.
-/

namespace PivotOs

open Paging

/-! ## What the loader reads -/

/-- What `Read` leaves in a buffer when it starts at this position. -/
def EfiFile.readInto (file : EfiFile) (position : Word) (size : Nat)
    (buf : Memory) : Memory :=
  buf.fill 0
    (file.readCount (file.setPosition position) (BitVec.ofNat 64 size)).toNat
    fun i => file.byte (file.setPosition position + i)

namespace BootServices

variable (services : BootServices)

/-- The header as `LoadKernel` reads it. -/
def hdr : Elf64Ehdr :=
  Elf64Ehdr.at (services.file.readInto 0#64 ehdrSize services.headerBuf) 0

/-- The program headers as `LoadKernel` reads them. -/
def programHeaders : List Elf64Phdr :=
  let buf := services.file.readInto services.hdr.ePhoff
    (phdrSize * services.hdr.ePhnum) services.pheaderBuf
  (List.range services.hdr.ePhnum).map fun p =>
    Elf64Phdr.at buf (phdrSize * p)

/-- The segments to be loaded. -/
def loads : List Elf64Phdr :=
  services.programHeaders.filter fun header => header.Load

/-- The length of the array of kernel entries. -/
def keLength : Nat := services.loads.length * kernelEntrySize

/-- The physical address of a byte of the array. -/
def keByte (j : Nat) : Word := services.ke + BitVec.ofNat 64 j

/-- The array reaches into no more pages than its length takes. -/
def ArrayFits : Prop :=
  services.keLength = 0 ∨
    services.ke.toNat % 4096 + services.keLength ≤
      (services.keLength + 4095) / 4096 * 4096

instance : Decidable services.ArrayFits :=
  inferInstanceAs (Decidable (_ ∨ _))

/-- No segment has a page where the array is mapped. -/
def Unshadowed : Prop :=
  ∀ header ∈ services.loads, ∀ j, j < services.keLength →
    pageOf (vaddr (services.keByte j)) ∉
      rangePages header.pVaddr header.numPages

/-- `AllocatePages` gives the segments pages without a byte of the array. -/
structure AreasApart : Prop where
  /-- The pages are aligned. -/
  aligned : ∀ k header, services.loads[k]? = some header →
    (services.area k).toNat % 4096 = 0
  /-- They have physical addresses. -/
  low : ∀ k header, services.loads[k]? = some header →
    (services.area k).toNat + header.numPages * 4096 ≤ 2 ^ 52
  /-- The array lies elsewhere. -/
  apart : ∀ k header j, services.loads[k]? = some header →
    j < services.keLength →
      ¬ AreaCovers (services.area k) header.numPages
        (frameOf (services.keByte j))

/-- There are fewer than `2 ^ 16` entries. -/
theorem keLength_lt : services.keLength < 2 ^ 21 := by
  have number : services.hdr.ePhnum < 2 ^ 16 := Memory.field_lt _ _ 2
  have fewer : services.loads.length ≤ services.programHeaders.length :=
    List.length_filter_le _ _
  rw [programHeaders, List.length_map, List.length_range] at fewer
  rw [keLength, kernelEntrySize]
  omega

theorem kePages_toNat :
    (efiSizeToPages (BitVec.ofNat 64 services.keLength)).toNat =
      (services.keLength + 4095) / 4096 := by
  have small := services.keLength_lt
  rw [Elf64Phdr.efiSizeToPages_toNat, BitVec.toNat_ofNat,
    Nat.mod_eq_of_lt (by omega)]

end BootServices

/-! ## Runs that succeed -/

namespace Boot

variable {services : BootServices} {pml4 : Word} {s : Boot}

theorem andThen_of_success
    {result : EfiStatus × Boot} {rest : Boot → EfiStatus × Boot}
    (success : (andThen result rest).1 = .success) :
    result.1 = .success ∧ andThen result rest = rest result.2 := by
  obtain ⟨status, next⟩ := result
  cases status with
  | success => exact ⟨rfl, rfl⟩
  | error => contradiction

/-- `LoadSegment` maps the pages of the segment, whatever the file holds. -/
theorem loadSegment_loader
    {header : Elf64Phdr} {entry : Nat}
    (success : (loadSegment services header pml4 entry s).1 = .success) :
    (loadSegment services header pml4 entry s).2.loader =
      s.loader.mapSegment (services.area entry) header.pVaddr pml4
        header.numPages := by
  let Q : EfiStatus × Boot → Prop := fun result =>
    result.2.loader = s.loader.mapSegment (services.area entry) header.pVaddr
      pml4 header.numPages
  refine of_success services Q success ?_
  rw [loadSegment]
  exact call_or Q (call_or Q (call_or Q (call_or Q (Or.inr rfl))))

/-- One round of the loop over the program headers. -/
theorem loadSegments_cons
    {header : Elf64Phdr} {headers : List Elf64Phdr} {k : Nat}
    (isLoad : header.Load)
    (success : (loadSegments services pml4 (header :: headers) k s).1 =
      .success) :
    ∃ middle : Boot,
      middle.loader = s.loader.mapSegment (services.area k) header.pVaddr pml4
        header.numPages ∧
      loadSegments services pml4 (header :: headers) k s =
        loadSegments services pml4 headers (k + 1) middle := by
  rw [loadSegments, if_pos isLoad] at success ⊢
  obtain ⟨loaded, eq⟩ := andThen_of_success success
  exact ⟨_, loadSegment_loader loaded, eq⟩

theorem loadSegments_failures_le
    {headers : List Elf64Phdr} {k : Nat}
    (success : (loadSegments services pml4 headers k s).1 = .success) :
    s.loader.failures ≤
      (loadSegments services pml4 headers k s).2.loader.failures := by
  induction headers generalizing k s with
  | nil => exact le_rfl
  | cons header headers inductionHypothesis =>
      by_cases isLoad : header.Load
      · obtain ⟨middle, mapped, eq⟩ := loadSegments_cons isLoad success
        rw [eq] at success ⊢
        have rest := inductionHypothesis success
        rw [mapped] at rest
        exact (Loader.mapSegment_failures_le _ _ _ _ _).trans rest
      · rw [loadSegments, if_neg isLoad] at success ⊢
        exact inductionHypothesis success

/-- The loop leaves a page of the higher half alone that no segment has. -/
theorem loadSegments_leaf_other
    {headers : List Elf64Phdr} {k : Nat} {address : Word}
    (sound : s.loader.Sound pml4)
    (high : 2 ^ 35 ≤ pageOf address)
    (outside : ∀ header ∈ headers, header.Load →
      pageOf address ∉ rangePages header.pVaddr header.numPages)
    (success : (loadSegments services pml4 headers k s).1 = .success) :
    (loadSegments services pml4 headers k s).2.loader.leafAt pml4 address =
      s.loader.leafAt pml4 address := by
  induction headers generalizing k s with
  | nil => rfl
  | cons header headers inductionHypothesis =>
      obtain ⟨here, later⟩ := List.forall_mem_cons.mp outside
      by_cases isLoad : header.Load
      · obtain ⟨middle, mapped, eq⟩ := loadSegments_cons isLoad success
        obtain ⟨_, grew⟩ := Loader.mapSegment_grew (services.area k)
          header.pVaddr header.numPages sound
        rw [← mapped] at grew
        rw [eq] at success ⊢
        rw [inductionHypothesis grew.sound later success,
          grew.leaf_high sound (here isLoad) high]
      · rw [loadSegments, if_neg isLoad] at success ⊢
        exact inductionHypothesis sound later success

/-- Without failures a page that a segment has is one that the firmware gave
for a segment. -/
theorem loadSegments_leaf_covered
    {headers : List Elf64Phdr} {k : Nat} {address : Word}
    (sound : s.loader.Sound pml4)
    (high : 2 ^ 35 ≤ pageOf address)
    (covered : ∃ header ∈ headers, header.Load ∧
      pageOf address ∈ rangePages header.pVaddr header.numPages)
    (success : (loadSegments services pml4 headers k s).1 = .success)
    (enough : (loadSegments services pml4 headers k s).2.loader.failures =
      s.loader.failures) :
    ∃ l header i,
      (headers.filter fun header => header.Load)[l]? = some header ∧
      i < header.numPages ∧
      (loadSegments services pml4 headers k s).2.loader.leafAt pml4 address =
        alignAddr (Pmm.pageAddress (services.area (k + l)) i) |||
          kernelPtEntry := by
  induction headers generalizing k s with
  | nil =>
      obtain ⟨header, member, -⟩ := covered
      exact absurd member List.not_mem_nil
  | cons header headers inductionHypothesis =>
      by_cases isLoad : header.Load
      · obtain ⟨middle, mapped, eq⟩ := loadSegments_cons isLoad success
        obtain ⟨_, grew⟩ := Loader.mapSegment_grew (services.area k)
          header.pVaddr header.numPages sound
        have fewer := Loader.mapSegment_failures_le (services.area k)
          header.pVaddr pml4 header.numPages s.loader
        rw [eq] at success enough ⊢
        have more := loadSegments_failures_le success
        rw [← mapped] at grew fewer
        have same : middle.loader.failures = s.loader.failures := by omega
        rw [List.filter_cons_of_pos (by simpa using isLoad)]
        -- The last segment that has the page decides.
        by_cases later : ∃ header ∈ headers, header.Load ∧
            pageOf address ∈ rangePages header.pVaddr header.numPages
        · obtain ⟨l, other, i, load, below, leaf⟩ := inductionHypothesis
            grew.sound later success (enough.trans same.symm)
          refine ⟨l + 1, other, i, load, below, ?_⟩
          rw [leaf, Nat.add_assoc, Nat.add_comm 1]
        · have here : pageOf address ∈
              rangePages header.pVaddr header.numPages := by
            obtain ⟨other, member, otherLoad, has⟩ := covered
            rcases List.mem_cons.mp member with rfl | member
            · exact has
            · exact absurd ⟨other, member, otherLoad, has⟩ later
          rw [mapped] at same
          obtain ⟨i, below, leaf⟩ :=
            Loader.mapSegment_leaf_covered sound same high here
          refine ⟨0, header, i, rfl, below, ?_⟩
          rw [loadSegments_leaf_other grew.sound high ?_ success, mapped, leaf,
            Nat.add_zero]
          intro other member otherLoad has
          exact later ⟨other, member, otherLoad, has⟩
      · rw [loadSegments, if_neg isLoad] at success enough ⊢
        rw [List.filter_cons_of_neg (by simpa using isLoad)]
        refine inductionHypothesis sound ?_ success enough
        obtain ⟨other, member, otherLoad, has⟩ := covered
        rcases List.mem_cons.mp member with rfl | member
        · exact absurd otherLoad isLoad
        · exact ⟨other, member, otherLoad, has⟩

/-- What a run of the last part of `LoadKernel` that succeeds has done. -/
structure Programmed (services : BootServices) (pml4 : Word) (s next : Boot) :
    Prop where
  /-- The pages of the array were mapped. -/
  mapped : (s.loader.mapRange (alignAddr services.ke)
    (vaddr (alignAddr services.ke)) pml4
    ((services.keLength + 4095) / 4096)).1 = .success
  /-- Then the segments were loaded. -/
  loaded : ∃ start : Boot,
    start.loader = (s.loader.mapRange (alignAddr services.ke)
      (vaddr (alignAddr services.ke)) pml4
      ((services.keLength + 4095) / 4096)).2 ∧
    (loadSegments services pml4 services.programHeaders 0 start).1 =
      .success ∧
    next.loader =
      (loadSegments services pml4 services.programHeaders 0 start).2.loader
  /-- The segments were counted. -/
  numKe_eq : next.numKe = services.loads.length

theorem loadProgram_programmed
    (success : (loadProgram services pml4 services.programHeaders s).1 =
      .success) :
    Programmed services pml4 s
      (loadProgram services pml4 services.programHeaders s).2 := by
  have counted : services.programHeaders.countP (fun header => header.Load) =
      services.loads.length := List.countP_eq_length_filter
  have pages := services.kePages_toNat
  rw [BootServices.keLength] at pages
  let Q : EfiStatus × Boot → Prop := fun result =>
    result.1 = .success → Programmed services pml4 s result.2
  refine of_success services Q success ?_ success
  rw [loadProgram, counted]
  refine call_or Q (Or.inr fun done => ?_)
  simp only [pages] at done ⊢
  obtain ⟨mapped, eq⟩ := andThen_of_success done
  rw [eq] at done ⊢
  obtain ⟨loaded, eq⟩ := andThen_of_success done
  rw [eq] at done ⊢
  refine of_success services Q done
    (call_or Q (call_or Q (call_or Q (Or.inr fun _ => ?_)))) done
  exact
    { mapped := mapped
      loaded := ⟨_, rfl, loaded, rfl⟩
      numKe_eq := rfl }

theorem readHeader_of_success
    {rest : Elf64Ehdr → Boot → EfiStatus × Boot}
    (success : (readHeader services s rest).1 = .success) :
    ∃ next, readHeader services s rest = rest services.hdr next ∧
      next.loader = s.loader := by
  let Q : EfiStatus × Boot → Prop := fun result =>
    result.1 = .success →
      ∃ next, result = rest services.hdr next ∧ next.loader = s.loader
  refine of_success services Q success ?_ success
  rw [readHeader]
  refine call_or Q (call_or Q (call_or Q (call_or Q (call_or Q (call_or Q
    (call_or Q (Or.inr ?_)))))))
  simp only [Q]
  split
  · intro wrong
    cases wrong
  split
  · intro wrong
    cases wrong
  · exact fun _ => ⟨_, rfl, rfl⟩

theorem readProgramHeaders_of_success
    {rest : List Elf64Phdr → Boot → EfiStatus × Boot}
    (success : (readProgramHeaders services services.hdr s rest).1 =
      .success) :
    ∃ next, readProgramHeaders services services.hdr s rest =
        rest services.programHeaders next ∧
      next.loader = s.loader := by
  rw [BootServices.programHeaders]
  generalize services.hdr = hdr at success ⊢
  let Q : EfiStatus × Boot → Prop := fun result =>
    ∃ next, result = rest ((List.range hdr.ePhnum).map fun p =>
        Elf64Phdr.at (services.file.readInto hdr.ePhoff
          (phdrSize * hdr.ePhnum) services.pheaderBuf) (phdrSize * p)) next ∧
      next.loader = s.loader
  refine of_success services Q success ?_
  rw [readProgramHeaders]
  exact call_or Q (call_or Q (call_or Q (Or.inr ⟨_, rfl, rfl⟩)))

/-- A run of `LoadKernel` that succeeds reads the headers and then goes on. -/
theorem loadKernel_programmed
    (success : (loadKernel services pml4 s).1 = .success) :
    Programmed services pml4 s (loadKernel services pml4 s).2 := by
  rw [loadKernel] at success ⊢
  obtain ⟨opened, eq, same⟩ := readHeader_of_success success
  rw [eq] at success ⊢
  obtain ⟨read, eq, sameAgain⟩ := readProgramHeaders_of_success success
  rw [eq] at success ⊢
  have programmed := loadProgram_programmed success
  have loader := sameAgain.trans same
  refine ⟨?_, ?_, programmed.numKe_eq⟩
  · rw [← loader]
    exact programmed.mapped
  · rw [← loader]
    exact programmed.loaded

/-! ## The array -/

/-- The kernel finds every byte of the array in the higher half. -/
def ArrayMapped (services : BootServices) (pml4 : Word) (s : Boot) : Prop :=
  ∀ j, j < s.numKe * kernelEntrySize →
    mmu s.loader.tables pml4 (vaddr (services.keByte j)) =
      some (alignAddr (services.keByte j))

end Boot

/-! ## Pages of the array -/

namespace BootServices

variable {services : BootServices} {j : Nat}

/-- The index of the page in which a byte of the array lies. -/
def kePage (services : BootServices) (j : Nat) : Nat :=
  (services.ke.toNat % 4096 + j) / 4096

section Low

variable (low : services.ke.toNat + services.keLength ≤ 2 ^ 47)
include low

theorem keByte_toNat (below : j < services.keLength) :
    (services.keByte j).toNat = services.ke.toNat + j := by
  rw [keByte, BitVec.toNat_add, BitVec.toNat_ofNat]
  omega

theorem ke_range (below : j < services.keLength) :
    HighRange (vaddr (alignAddr services.ke))
      ((services.keLength + 4095) / 4096) := by
  have aligned := alignAddr_toNat services.ke
  have offset : higherHalfOffset.toNat = 2 ^ 64 - 2 ^ 47 := by decide
  have value := vaddr_toNat
    (show (alignAddr services.ke).toNat < 2 ^ 47 by omega)
  constructor
  · omega
  · omega

theorem pageOf_keByte (below : j < services.keLength) :
    pageOf (vaddr (services.keByte j)) + (2 ^ 52 - 2 ^ 36) =
      (vaddr (alignAddr services.ke)).toNat / 4096 + services.kePage j := by
  have aligned := alignAddr_toNat services.ke
  have address := keByte_toNat low below
  have offset : higherHalfOffset.toNat = 2 ^ 64 - 2 ^ 47 := by decide
  have value := vaddr_toNat
    (show (alignAddr services.ke).toNat < 2 ^ 47 by omega)
  have byteValue := vaddr_toNat
    (show (services.keByte j).toNat < 2 ^ 47 by omega)
  rw [pageOf, byteValue, value, kePage, pageSize]
  omega

theorem alignAddr_keByte (below : j < services.keLength) :
    Pmm.pageAddress (alignAddr services.ke) (services.kePage j) =
      alignAddr (services.keByte j) := by
  have aligned := alignAddr_toNat services.ke
  have address := keByte_toNat low below
  apply BitVec.eq_of_toNat_eq
  rw [alignAddr_toNat, address, Pmm.pageAddress, BitVec.toNat_add, aligned,
    BitVec.toNat_ofNat, kePage, pageSize]
  omega

end Low

/-- The array fits if its last byte lies in a page that is counted. -/
theorem arrayFits_iff :
    services.ArrayFits ↔ ∀ j, j < services.keLength →
      services.kePage j < (services.keLength + 4095) / 4096 := by
  constructor
  · intro fits j below
    rw [kePage]
    rcases fits with none | fits
    · omega
    · omega
  · intro inside
    by_cases none : services.keLength = 0
    · exact Or.inl none
    · have last := inside (services.keLength - 1) (by omega)
      rw [kePage] at last
      exact Or.inr (by omega)

end BootServices

namespace Boot

variable {services : BootServices} {pml4 : Word} {s next : Boot} {j : Nat}

namespace Programmed

/-- A page of the array that no segment has is as `MapRange` left it. -/
theorem mmu_eq
    (programmed : Programmed services pml4 s next)
    (sound : s.loader.Sound pml4)
    (unshadowed : services.Unshadowed)
    (below : j < services.keLength) :
    mmu next.loader.tables pml4 (vaddr (services.keByte j)) =
      mmu (s.loader.mapRange (alignAddr services.ke)
        (vaddr (alignAddr services.ke)) pml4
        ((services.keLength + 4095) / 4096)).2.tables pml4
        (vaddr (services.keByte j)) := by
  obtain ⟨start, mapped, success, loader⟩ := programmed.loaded
  obtain ⟨_, grew⟩ := Loader.mapRange_grew (alignAddr services.ke)
    (vaddr (alignAddr services.ke)) ((services.keLength + 4095) / 4096) sound
  rw [← mapped] at grew ⊢
  rw [Loader.mmu_eq, Loader.mmu_eq, loader,
    loadSegments_leaf_other grew.sound (le_pageOf_of_bit (vaddr_bit _)) ?_
      success]
  intro header member isLoad
  exact unshadowed header
    (List.mem_filter.mpr ⟨member, by simpa using isLoad⟩) j below

/-- `MapRange` maps the byte if its page is counted. -/
theorem mmu_counted
    (programmed : Programmed services pml4 s next)
    (sound : s.loader.Sound pml4)
    (low : services.ke.toNat + services.keLength ≤ 2 ^ 47)
    (unshadowed : services.Unshadowed)
    (below : j < services.keLength)
    (counted : services.kePage j < (services.keLength + 4095) / 4096) :
    mmu next.loader.tables pml4 (vaddr (services.keByte j)) =
      some (alignAddr (services.keByte j)) := by
  have address := BootServices.keByte_toNat low below
  have aligned := alignAddr_toNat (services.keByte j)
  have range := BootServices.ke_range low below
  have page : pageOf (vaddr (services.keByte j)) =
      pageOf (Pmm.pageAddress (vaddr (alignAddr services.ke))
        (services.kePage j)) := by
    have bytePage := BootServices.pageOf_keByte low below
    have mappedPage := range.pageOf_pageAddress counted
    omega
  rw [programmed.mmu_eq sound unshadowed below, Loader.mmu_eq,
    Loader.leafAt_eq_of_pageOf_eq page,
    Loader.mapRange_leafAt sound range programmed.mapped counted,
    BootServices.alignAddr_keByte low below]
  exact next_or_flags (by omega) (by omega) (by decide) (by decide)

/-- It leaves the byte as it was if its page is not counted. -/
theorem mmu_uncounted
    (programmed : Programmed services pml4 s next)
    (sound : s.loader.Sound pml4)
    (low : services.ke.toNat + services.keLength ≤ 2 ^ 47)
    (unshadowed : services.Unshadowed)
    (below : j < services.keLength)
    (uncounted : (services.keLength + 4095) / 4096 ≤ services.kePage j) :
    mmu next.loader.tables pml4 (vaddr (services.keByte j)) =
      mmu s.loader.tables pml4 (vaddr (services.keByte j)) := by
  obtain ⟨_, grew⟩ := Loader.mapRange_grew (alignAddr services.ke)
    (vaddr (alignAddr services.ke)) ((services.keLength + 4095) / 4096) sound
  rw [programmed.mmu_eq sound unshadowed below, Loader.mmu_eq, Loader.mmu_eq,
    grew.leaf_high sound ?_ (le_pageOf_of_bit (vaddr_bit _))]
  rintro ⟨i, early, same⟩
  have bytePage := BootServices.pageOf_keByte low below
  have mappedPage :=
    (BootServices.ke_range low below).pageOf_pageAddress early
  omega

/-- Without failures a byte of the array that is mapped is not in a page of a
segment. -/
theorem unshadowed_of_mapped
    (programmed : Programmed services pml4 s next)
    (sound : s.loader.Sound pml4)
    (apart : services.AreasApart)
    (enough : next.loader.failures = s.loader.failures)
    (mapped : ArrayMapped services pml4 next) :
    services.Unshadowed := by
  intro header member j below has
  obtain ⟨start, ran, success, loader⟩ := programmed.loaded
  obtain ⟨_, grew⟩ := Loader.mapRange_grew (alignAddr services.ke)
    (vaddr (alignAddr services.ke)) ((services.keLength + 4095) / 4096) sound
  have fewer := (@Loader.mapRange_counts pml4 s.loader (alignAddr services.ke)
    (vaddr (alignAddr services.ke))
    ((services.keLength + 4095) / 4096)).failures_le
  have more := loadSegments_failures_le success
  rw [← ran] at grew fewer
  rw [loader] at enough
  obtain ⟨listed, isLoad⟩ := List.mem_filter.mp member
  obtain ⟨l, other, i, load, inside, leaf⟩ := loadSegments_leaf_covered
    grew.sound (le_pageOf_of_bit (vaddr_bit _))
    ⟨header, listed, by simpa using isLoad, has⟩ success (by omega)
  -- The processor finds a page of a segment, and the array has none.
  have aligned := apart.aligned l other load
  have fits := apart.low l other load
  obtain ⟨value, frame⟩ :=
    Pmm.frameOf_pageAddress (i := i) aligned (by omega)
  have found := mapped j (by rwa [programmed.numKe_eq])
  rw [Loader.mmu_eq, loader, leaf, Nat.zero_add,
    alignAddr_of_aligned (by omega),
    next_or_flags (by omega) (by omega) (by decide) (by decide)] at found
  have same := Option.some.inj found
  apply apart.apart l other j load below
  have place := alignAddr_toNat (services.keByte j)
  rw [← same, value] at place
  constructor
  · rw [frameOf, frameOf, pageSize]
    omega
  · rw [frameOf, frameOf, pageSize]
    omega

/-- Where no segment has a page of the array, and nothing was mapped there
before, the array is mapped exactly if it fits. -/
theorem arrayMapped_iff
    (programmed : Programmed services pml4 s next)
    (sound : s.loader.Sound pml4)
    (low : services.ke.toNat + services.keLength ≤ 2 ^ 47)
    (empty : ∀ j, mmu s.loader.tables pml4 (vaddr (services.keByte j)) = none)
    (unshadowed : services.Unshadowed) :
    ArrayMapped services pml4 next ↔ services.ArrayFits := by
  rw [BootServices.arrayFits_iff, ArrayMapped, programmed.numKe_eq,
    ← BootServices.keLength]
  refine forall₂_congr fun j below => ?_
  constructor
  · intro mapped
    by_contra late
    rw [programmed.mmu_uncounted sound low unshadowed below
      (Nat.le_of_not_lt late), empty] at mapped
    exact absurd mapped.symm (Option.some_ne_none _)
  · exact programmed.mmu_counted sound low unshadowed below

end Programmed

/-- After `ConfigurePaging`, a run of `LoadKernel` that succeeds has mapped the
array exactly if the array fits into the pages that its length takes and no
segment has a page there.  `LoadSegment` does not look at the status of
`MapAddr`, so the second condition is needed only where no table failed. -/
theorem loadKernel_arrayMapped
    (services : BootServices) (pml4 : Word) (start : Loader) (s : Boot)
    (firmware : start.Firmware pml4)
    (root : Loader.LowPage pml4)
    (fresh : s.loader = (Loader.configurePaging pml4 start).2)
    (low : services.ke.toNat + services.keLength ≤ 2 ^ 47)
    (success : (loadKernel services pml4 s).1 = .success) :
    (services.Unshadowed →
      (ArrayMapped services pml4 (loadKernel services pml4 s).2 ↔
        services.ArrayFits)) ∧
    (services.AreasApart →
      (loadKernel services pml4 s).2.loader.failures = s.loader.failures →
        (ArrayMapped services pml4 (loadKernel services pml4 s).2 ↔
          services.Unshadowed ∧ services.ArrayFits)) := by
  have programmed := loadKernel_programmed success
  have sound : s.loader.Sound pml4 := by
    rw [fresh]
    exact Loader.configurePaging_sound firmware
  have empty : ∀ j,
      mmu s.loader.tables pml4 (vaddr (services.keByte j)) = none := by
    intro j
    rw [fresh]
    exact Loader.configurePaging_mmu_high firmware root
      (le_pageOf_of_bit (vaddr_bit _))
  have fits_iff := programmed.arrayMapped_iff sound low empty
  refine ⟨fits_iff, fun apart enough => ⟨fun mapped => ?_, fun holds => ?_⟩⟩
  · have unshadowed :=
      programmed.unshadowed_of_mapped sound apart enough mapped
    exact ⟨unshadowed, (fits_iff unshadowed).mp mapped⟩
  · exact (fits_iff holds.1).mpr holds.2

end Boot

/-! ## Samples -/

theorem sampleServices_loads : sampleServices.loads = sampleFile.loads := by
  rw [sampleFile_loads]
  decide +kernel

theorem sampleServices_keLength : sampleServices.keLength = 48 := by
  decide +kernel

theorem sampleServices_unshadowed : sampleServices.Unshadowed := by
  rw [BootServices.Unshadowed, sampleServices_loads, sampleServices_keLength,
    sampleFile_loads]
  rintro header member j below ⟨i, inside, same⟩
  have others : ∀ header ∈ [sampleText, sampleData], ∀ j, j < 48 →
      ∀ i, i < header.numPages →
        pageOf (vaddr (sampleServices.keByte j)) ≠
          pageOf (Pmm.pageAddress header.pVaddr i) := by
    decide +kernel
  exact others header member j below i inside same

theorem sampleServices_areasApart : sampleServices.AreasApart where
  aligned := by
    rw [sampleServices_loads]
    exact sampleServices_provides.aligned
  low := by
    rw [sampleServices_loads]
    exact sampleServices_provides.low
  apart := by
    rw [sampleServices_loads]
    intro k header j load below covers
    have address := BootServices.keByte_toNat (by decide +kernel) below
    have start : sampleServices.ke.toNat = 0x300010 := by decide
    have frame : frameOf (sampleServices.keByte j) = 0x300 := by
      rw [sampleServices_keLength] at below
      rw [frameOf, address, start, pageSize]
      omega
    have above := covers.1
    rw [frame] at above
    rcases sampleFile_load_cases load with ⟨rfl, -⟩ | ⟨rfl, -⟩
    · exact absurd above (by decide)
    · exact absurd above (by decide)

theorem loadKernel_arrayMapped_sample :
    sampleServices.Unshadowed ∧ sampleServices.ArrayFits ∧
      Boot.ArrayMapped sampleServices 0x200000#64
        (Boot.loadKernel sampleServices 0x200000#64 sampleBoot).2 := by
  obtain ⟨fits_iff, mapped_iff⟩ := Boot.loadKernel_arrayMapped sampleServices
    0x200000#64 sampleLoader sampleBoot sampleLoader_firmware
    ⟨by decide, by decide⟩ rfl (by decide +kernel) (by decide +kernel)
  have fits : sampleServices.ArrayFits := by decide +kernel
  have mapped := (fits_iff sampleServices_unshadowed).mpr fits
  obtain ⟨unshadowed, -⟩ :=
    (mapped_iff sampleServices_areasApart (by decide +kernel)).mp mapped
  exact ⟨unshadowed, fits, mapped⟩

/-- A firmware whose pool has the array sixteen bytes before the end of a
page. -/
def lateServices : BootServices :=
  { sampleServices with ke := 0x300FF0#64 }

/-- Of the two entries of this array, the end of the first and all of the second
are not mapped. -/
theorem loadKernel_array_unmapped :
    ¬ ∀ (services : BootServices) (pml4 : Word) (start : Loader) (s : Boot),
      start.Firmware pml4 → Loader.LowPage pml4 →
        s.loader = (Loader.configurePaging pml4 start).2 →
        services.ke.toNat % 8 = 0 →
        services.ke.toNat + services.keLength ≤ 2 ^ 47 →
        (Boot.loadKernel services pml4 s).1 = .success →
          Boot.ArrayMapped services pml4
            (Boot.loadKernel services pml4 s).2 := by
  intro claim
  have mapped := claim lateServices 0x200000#64 sampleLoader sampleBoot
    sampleLoader_firmware ⟨by decide, by decide⟩ rfl (by decide)
    (by decide +kernel) (by decide +kernel) 16 (by decide +kernel)
  exact absurd mapped (by decide +kernel)

end PivotOs
