import PivotOs.Loader.Identity
import PivotOs.Loader.MapSegment

/-!
# The segments of the kernel in memory

After `LoadKernel` the kernel's address space shows every segment of the file
at its virtual address, with zeros behind the bytes that the file has.  The
number of pages, the place at which the bytes are read, the zeros behind them
and the pages that are mapped all go by the offset of the segment in its first
page, and a segment is neither overwritten nor unmapped by the ones that are
loaded after it.
-/

namespace PivotOs

open Paging

/-! ## Bytes -/

namespace Memory

/-- Fields are made of the bytes they cover. -/
theorem field_congr
    {left right : Memory} {leftAddress rightAddress width : Nat}
    (same : ∀ i, i < width →
      left (leftAddress + i) = right (rightAddress + i)) :
    left.field leftAddress width = right.field rightAddress width := by
  induction width generalizing leftAddress rightAddress with
  | zero => rfl
  | succ width inductionHypothesis =>
      have first := same 0 (Nat.succ_pos width)
      rw [Nat.add_zero, Nat.add_zero] at first
      rw [field, field, first]
      congr 2
      apply inductionHypothesis
      intro i below
      have later := same (i + 1) (Nat.succ_lt_succ below)
      rwa [Nat.add_right_comm, Nat.add_right_comm rightAddress]

/-- A field of a record is made of the bytes of the record. -/
theorem field_congr_inside
    {left right : Memory} {leftAddress rightAddress size : Nat}
    (same : ∀ i, i < size →
      left (leftAddress + i) = right (rightAddress + i))
    (offset width : Nat)
    (inside : offset + width ≤ size) :
    left.field (leftAddress + offset) width =
      right.field (rightAddress + offset) width := by
  apply field_congr
  intro i below
  rw [Nat.add_assoc, Nat.add_assoc]
  exact same _ (by omega)

theorem field_lt (mem : Memory) (address width : Nat) :
    mem.field address width < 256 ^ width := by
  induction width generalizing address with
  | zero => exact Nat.one_pos
  | succ width inductionHypothesis =>
      have byte := (mem address).isLt
      have rest := inductionHypothesis (address + 1)
      rw [field, Nat.pow_succ]
      omega

theorem fill_inside
    {mem : Memory} {address count i : Nat} {bytes : Nat → BitVec 8}
    (below : i < count) :
    mem.fill address count bytes (address + i) = bytes i := by
  rw [fill, if_pos ⟨Nat.le_add_right _ _, by omega⟩, Nat.add_sub_cancel_left]

theorem fill_outside
    {mem : Memory} {address count place : Nat} {bytes : Nat → BitVec 8}
    (outside : place < address ∨ address + count ≤ place) :
    mem.fill address count bytes place = mem place := by
  rw [fill, if_neg]
  omega

/-- Bytes and then zeros. -/
theorem fill_fill
    (mem : Memory) (address : Nat) (bytes image : Nat → BitVec 8)
    {first all : Nat}
    (le : first ≤ all)
    (start : ∀ i, i < first → bytes i = image i)
    (rest : ∀ i, first ≤ i → image i = 0#8) :
    (mem.fill address first bytes).fill (address + first) (all - first)
        (fun _ => 0#8) =
      mem.fill address all image := by
  funext place
  by_cases below : place < address
  · rw [fill_outside (Or.inl (by omega)), fill_outside (Or.inl below),
      fill_outside (Or.inl below)]
  obtain ⟨i, rfl⟩ := Nat.exists_eq_add_of_le (Nat.le_of_not_lt below)
  by_cases early : i < first
  · rw [fill_outside (Or.inl (by omega)), fill_inside early,
      fill_inside (by omega), start i early]
  by_cases late : i < all
  · obtain ⟨j, rfl⟩ := Nat.exists_eq_add_of_le (Nat.le_of_not_lt early)
    rw [← Nat.add_assoc, fill_inside (by omega), Nat.add_assoc,
      fill_inside late, rest _ (Nat.le_add_right _ _)]
  · rw [fill_outside (Or.inr (by omega)), fill_outside (Or.inr (by omega)),
      fill_outside (Or.inr (by omega))]

end Memory

namespace EfiFile

/-- Where the requested bytes are in the file, `Read` returns them. -/
theorem read_all
    {file : EfiFile} {position size : Word}
    (fits : position.toNat + size.toNat ≤ file.size) :
    file.readCount (file.setPosition position) size = size ∧
      ∀ i, i < size.toNat →
        file.setPosition position + i = position.toNat + i := by
  rw [setPosition]
  split
  · rename_i highest
    have value : position.toNat = 2 ^ 64 - 1 := by rw [highest]; rfl
    have short := file.size_lt
    have none : size.toNat = 0 := by omega
    refine ⟨?_, by omega⟩
    apply BitVec.eq_of_toNat_eq
    rw [readCount, none]
    simp
  · refine ⟨?_, fun _ _ => rfl⟩
    rw [readCount, Nat.min_eq_left (by omega), BitVec.ofNat_toNat,
      BitVec.setWidth_eq]

/-- The program headers of the file. -/
def programHeaders (file : EfiFile) : List Elf64Phdr :=
  let hdr := Elf64Ehdr.at file.byte 0
  (List.range hdr.ePhnum).map fun p =>
    Elf64Phdr.at file.byte (hdr.ePhoff.toNat + hdr.ePhentsize * p)

/-- The segments that are to be loaded. -/
def loads (file : EfiFile) : List Elf64Phdr :=
  file.programHeaders.filter fun header => header.Load

end EfiFile

/-! ## Segments -/

namespace Elf64Phdr

/-- What a segment holds. -/
def image (header : Elf64Phdr) (file : EfiFile) (j : Nat) : BitVec 8 :=
  if j < header.pFilesz.toNat then file.byte (header.pOffset.toNat + j)
  else 0#8

/-- The segment reaches into this page. -/
def Occupies (header : Elf64Phdr) (page : Nat) : Prop :=
  header.pVaddr.toNat / 4096 ≤ page ∧
    page * 4096 < header.pVaddr.toNat + header.pMemsz.toNat

/-- How many pages the segment reaches into. -/
def pagesOccupied (header : Elf64Phdr) : Nat :=
  (header.pVaddr.toNat + header.pMemsz.toNat + 4095) / 4096 -
    header.pVaddr.toNat / 4096

/-- A segment of the higher half whose bytes are in the file. -/
structure Proper (header : Elf64Phdr) (file : EfiFile) : Prop where
  /-- The bytes of the file fit into the segment. -/
  filesz_le : header.pFilesz.toNat ≤ header.pMemsz.toNat
  /-- They are in the file. -/
  fits : header.pOffset.toNat + header.pFilesz.toNat ≤ file.size
  /-- The segment starts in the higher half. -/
  high : higherHalfOffset.toNat ≤ header.pVaddr.toNat
  /-- It ends there. -/
  ends : header.pVaddr.toNat + header.pMemsz.toNat ≤ 2 ^ 64

theorem pageOffset_toNat (header : Elf64Phdr) :
    header.pageOffset.toNat = header.pVaddr.toNat % 4096 := by
  rw [pageOffset, BitVec.toNat_umod]
  rfl

/-- `EFI_SIZE_TO_PAGES` rounds up. -/
theorem efiSizeToPages_toNat (size : Word) :
    (efiSizeToPages size).toNat = (size.toNat + 4095) / 4096 := by
  have low : (size &&& 0xFFF#64).toNat = size.toNat % 4096 := by
    rw [BitVec.toNat_and]
    exact Nat.and_two_pow_sub_one_eq_mod _ 12
  have shifted : (size >>> 12).toNat = size.toNat / 4096 := by
    rw [BitVec.toNat_ushiftRight, Nat.shiftRight_eq_div_pow]
  have zero : size &&& 0xFFF#64 = 0#64 ↔ size.toNat % 4096 = 0 := by
    rw [BitVec.toNat_eq, low]
    rfl
  have small := size.isLt
  rw [efiSizeToPages, BitVec.toNat_add, shifted]
  by_cases aligned : size.toNat % 4096 = 0
  · rw [if_pos (zero.mpr aligned)]
    simp only [BitVec.toNat_ofNat]
    omega
  · rw [if_neg (mt zero.mp aligned)]
    simp only [BitVec.toNat_ofNat]
    omega

namespace Proper

variable {header : Elf64Phdr} {file : EfiFile}

/-- The code counts the pages that the segment reaches into. -/
theorem numPages_eq (proper : header.Proper file) :
    header.numPages = header.pagesOccupied := by
  have high := proper.high
  have ends := proper.ends
  have offset : higherHalfOffset.toNat = 2 ^ 64 - 2 ^ 47 := by decide
  have bound := header.pVaddr.isLt
  rw [numPages, efiSizeToPages_toNat, BitVec.toNat_add, pageOffset_toNat,
    pagesOccupied]
  omega

theorem range (proper : header.Proper file) :
    HighRange header.pVaddr header.numPages := by
  have ends := proper.ends
  have bound := header.pVaddr.isLt
  refine ⟨proper.high, ?_⟩
  rw [proper.numPages_eq, pagesOccupied]
  omega

/-- The bytes of the segment lie in its pages. -/
theorem fits_pages (proper : header.Proper file) :
    header.pageOffset.toNat + header.pMemsz.toNat ≤ header.numPages * 4096 := by
  rw [proper.numPages_eq, pagesOccupied, pageOffset_toNat]
  omega

/-- The pages that the code maps are those that the segment reaches into. -/
theorem occupies
    (proper : header.Proper file)
    {i : Nat}
    (below : i < header.numPages) :
    header.Occupies (header.pVaddr.toNat / 4096 + i) := by
  rw [proper.numPages_eq, pagesOccupied] at below
  constructor <;> omega

end Proper
end Elf64Phdr

/-! ## The firmware -/

/-- The frame is one of those at `start`. -/
def AreaCovers (start : Word) (count frame : Nat) : Prop :=
  frameOf start ≤ frame ∧ frame < frameOf start + count

/-- `AllocatePages` gives every segment pages of its own, which are not those
of a table. -/
structure BootServices.Provides (services : BootServices) (pml4 : Word)
    (loads : List Elf64Phdr) (s : Loader) : Prop where
  /-- The pages are aligned. -/
  aligned : ∀ k header, loads[k]? = some header →
    (services.area k).toNat % 4096 = 0
  /-- They have physical addresses. -/
  low : ∀ k header, loads[k]? = some header →
    (services.area k).toNat + header.numPages * 4096 ≤ 2 ^ 52
  /-- No two segments share one. -/
  disjoint : ∀ k l left right frame, loads[k]? = some left →
    loads[l]? = some right →
      AreaCovers (services.area k) left.numPages frame →
      AreaCovers (services.area l) right.numPages frame → k = l
  /-- None of them is a table or will become one. -/
  apart : ∀ k header table, loads[k]? = some header →
    s.IsTable pml4 table ∨ some table ∈ s.pages →
      ¬ AreaCovers (services.area k) header.numPages (frameOf table)

namespace Boot

variable {services : BootServices} {pml4 : Word} {s next : Boot}

/-- The function fails because a call of the firmware did. -/
def Fails (services : BootServices) (result : EfiStatus × Boot) : Prop :=
  result.1 = .error ∧ ∃ n, services.status n = .error

theorem call_cases
    (services : BootServices) (s : Boot) (rest : Boot → EfiStatus × Boot) :
    Fails services (call services s rest) ∨
      call services s rest = rest { s with calls := s.calls + 1 } := by
  rw [call]
  cases answer : services.status s.calls with
  | success => exact Or.inr rfl
  | error => exact Or.inl ⟨rfl, s.calls, answer⟩

/-- What holds if the call succeeds holds unless a call fails. -/
theorem call_or
    (Q : EfiStatus × Boot → Prop)
    {rest : Boot → EfiStatus × Boot}
    (done : Fails services (rest { s with calls := s.calls + 1 }) ∨
      Q (rest { s with calls := s.calls + 1 })) :
    Fails services (call services s rest) ∨ Q (call services s rest) := by
  rcases call_cases services s rest with failed | eq
  · exact Or.inl failed
  · rw [eq]
    exact done

/-- What holds unless a call fails holds of a run that succeeds. -/
theorem of_success
    (services : BootServices) (Q : EfiStatus × Boot → Prop)
    {result : EfiStatus × Boot}
    (success : result.1 = .success)
    (cases : Fails services result ∨ Q result) :
    Q result := by
  rcases cases with ⟨error, -⟩ | holds
  · rw [success] at error
    contradiction
  · exact holds

theorem Fails.andThen
    {result : EfiStatus × Boot}
    (failed : Fails services result)
    (rest : Boot → EfiStatus × Boot) :
    Fails services (andThen result rest) := by
  obtain ⟨status, s⟩ := result
  obtain ⟨error, broken⟩ := failed
  cases error
  exact ⟨rfl, broken⟩

/-- What there is after a segment was loaded. -/
def segmentLoaded (services : BootServices) (header : Elf64Phdr) (pml4 : Word)
    (entry calls position : Nat) (s : Boot) : Boot :=
  { s with
    calls := calls
    position := position
    mem := s.mem.fill ((services.area entry).toNat + header.pageOffset.toNat)
      header.pMemsz.toNat (header.image services.file)
    entries := Function.update s.entries entry
      { vaddr := header.pVaddr
        paddr := services.area entry
        numPages := header.numPages }
    loader := s.loader.mapSegment (services.area entry) header.pVaddr pml4
      header.numPages }

/-- `LoadSegment` reads the segment and maps it, unless a call fails. -/
theorem loadSegment_cases
    {header : Elf64Phdr}
    (pml4 : Word) (entry : Nat) (s : Boot)
    (proper : header.Proper services.file)
    (low : (services.area entry).toNat + header.numPages * 4096 ≤ 2 ^ 52) :
    Fails services (loadSegment services header pml4 entry s) ∨
      ∃ calls position,
        loadSegment services header pml4 entry s =
          (.success,
            segmentLoaded services header pml4 entry calls position s) := by
  obtain ⟨all, places⟩ := EfiFile.read_all proper.fits
  have inPages := proper.fits_pages
  have filesz_le := proper.filesz_le
  have first : (services.area entry + header.pageOffset).toNat =
      (services.area entry).toNat + header.pageOffset.toNat := by
    rw [BitVec.toNat_add]
    omega
  have second :
      (services.area entry + header.pageOffset + header.pFilesz).toNat =
        (services.area entry).toNat + header.pageOffset.toNat +
          header.pFilesz.toNat := by
    rw [BitVec.toNat_add, first]
    omega
  have rest : (header.pMemsz - header.pFilesz).toNat =
      header.pMemsz.toNat - header.pFilesz.toNat :=
    BitVec.toNat_sub_of_le filesz_le
  have filled := Memory.fill_fill s.mem
    ((services.area entry).toNat + header.pageOffset.toNat)
    (fun i => services.file.byte (services.file.setPosition header.pOffset + i))
    (header.image services.file) filesz_le
    (by
      intro i below
      rw [places i below, Elf64Phdr.image, if_pos below])
    (by
      intro i above
      rw [Elf64Phdr.image, if_neg (by omega)])
  let Q : EfiStatus × Boot → Prop := fun result => ∃ calls position,
    result = (.success,
      segmentLoaded services header pml4 entry calls position s)
  rw [loadSegment]
  refine call_or Q (call_or Q (call_or Q (call_or Q ?_)))
  simp only [all, first, second, rest, filled]
  exact Or.inr ⟨_, _, rfl⟩

/-- The first `count` segments are in memory. -/
structure Loaded (services : BootServices) (pml4 : Word)
    (loads : List Elf64Phdr) (start : Loader) (count : Nat) (s : Boot) :
    Prop where
  /-- The tables have grown. -/
  grew : ∃ tables, Loader.Grew pml4 tables Set.univ start s.loader
  /-- The entries list the segments. -/
  entries : ∀ k header, k < count → loads[k]? = some header →
    s.entries k =
      { vaddr := header.pVaddr
        paddr := services.area k
        numPages := header.numPages }
  /-- The pages of the segments are mapped. -/
  leaves : ∀ k header, k < count → loads[k]? = some header →
    ∀ i, i < header.numPages →
      s.loader.leafAt pml4 (Pmm.pageAddress header.pVaddr i) =
        alignAddr (Pmm.pageAddress (services.area k) i) ||| kernelPtEntry
  /-- Their bytes are in these pages. -/
  bytes : ∀ k header, k < count → loads[k]? = some header →
    ∀ j, j < header.pMemsz.toNat →
      s.mem ((services.area k).toNat + header.pageOffset.toNat + j) =
        header.image services.file j

/-- The segments can be loaded: they are proper, and no two of them share a
page. -/
structure Loadable (file : EfiFile) (loads : List Elf64Phdr) : Prop where
  /-- Each of them is proper. -/
  proper : ∀ (k : Nat) header, loads[k]? = some header →
    Elf64Phdr.Proper header file
  /-- No two of them share a page. -/
  disjoint : ∀ (k l : Nat) (left right : Elf64Phdr) page,
    loads[k]? = some left → loads[l]? = some right →
      left.Occupies page → right.Occupies page → k = l

/-- A byte of a segment lies in the pages of its segment. -/
theorem areaCovers_byte
    {header : Elf64Phdr} {file : EfiFile} {area : Word} {j : Nat}
    (proper : header.Proper file)
    (aligned : area.toNat % 4096 = 0)
    (below : j < header.pMemsz.toNat) :
    AreaCovers area header.numPages
      ((area.toNat + header.pageOffset.toNat + j) / 4096) := by
  have inPages := proper.fits_pages
  constructor
  · rw [frameOf, pageSize]
    omega
  · rw [frameOf, pageSize]
    omega

/-- A page that one segment maps is mapped by no other. -/
theorem Loadable.not_mem_rangePages
    {file : EfiFile} {loads : List Elf64Phdr} {k l i : Nat}
    {left right : Elf64Phdr}
    (loadable : Loadable file loads)
    (leftLoad : loads[k]? = some left)
    (rightLoad : loads[l]? = some right)
    (different : k ≠ l)
    (below : i < left.numPages) :
    pageOf (Pmm.pageAddress left.pVaddr i) ∉
      rangePages right.pVaddr right.numPages := by
  rintro ⟨q, rightBelow, same⟩
  have leftProper := loadable.proper k left leftLoad
  have rightProper := loadable.proper l right rightLoad
  have leftPage := leftProper.range.pageOf_pageAddress below
  have rightPage := rightProper.range.pageOf_pageAddress rightBelow
  have occupied := rightProper.occupies rightBelow
  rw [← rightPage, ← same, leftPage] at occupied
  exact different (loadable.disjoint k l left right _ leftLoad rightLoad
    (leftProper.occupies below) occupied)

/-- One more segment. -/
theorem Loaded.step
    {loads : List Elf64Phdr} {start : Loader} {k calls position : Nat}
    {header : Elf64Phdr}
    (sound : start.Sound pml4)
    (loadable : Loadable services.file loads)
    (provides : services.Provides pml4 loads start)
    (loaded : Loaded services pml4 loads start k s)
    (load : loads[k]? = some header)
    (enough : (segmentLoaded services header pml4 k calls position
      s).loader.failures = s.loader.failures) :
    Loaded services pml4 loads start (k + 1)
      (segmentLoaded services header pml4 k calls position s) := by
  have proper := loadable.proper k header load
  obtain ⟨tables, grew⟩ := loaded.grew
  obtain ⟨later, grewLater⟩ := Loader.mapSegment_grew (services.area k)
    header.pVaddr header.numPages grew.sound
  refine
    { grew := ⟨later ++ tables,
        grew.trans sound (grewLater.mono (Set.subset_univ _))⟩
      entries := ?_
      leaves := ?_
      bytes := ?_ }
  all_goals
    intro l other below otherLoad
    rcases Nat.lt_succ_iff_lt_or_eq.mp below with earlier | rfl
  · rw [← loaded.entries l other earlier otherLoad]
    exact Function.update_of_ne (Nat.ne_of_lt earlier) _ _
  · obtain rfl := Option.some.inj (load.symm.trans otherLoad)
    exact Function.update_self _ _ _
  · intro i inside
    have otherProper := loadable.proper l other otherLoad
    rw [segmentLoaded, grewLater.leaf_high grew.sound
      (loadable.not_mem_rangePages otherLoad load (Nat.ne_of_lt earlier)
        inside) (otherProper.range.le_pageOf inside)]
    exact loaded.leaves l other earlier otherLoad i inside
  · intro i inside
    obtain rfl := Option.some.inj (load.symm.trans otherLoad)
    exact Loader.mapSegment_leafAt grew.sound proper.range enough inside
  · intro j inside
    rw [← loaded.bytes l other earlier otherLoad j inside]
    apply Memory.fill_outside
    -- A byte in the pages of both segments would be one of both areas.
    by_contra overlap
    rw [not_or, Nat.not_lt, Nat.not_le] at overlap
    obtain ⟨i, place⟩ := Nat.exists_eq_add_of_le overlap.1
    have here := areaCovers_byte proper (provides.aligned k header load)
      (j := i) (by omega)
    have there := areaCovers_byte (loadable.proper l other otherLoad)
      (provides.aligned l other otherLoad) inside
    rw [place] at there
    have same := provides.disjoint l k other header _ otherLoad load there here
    omega
  · intro j inside
    obtain rfl := Option.some.inj (load.symm.trans otherLoad)
    exact Memory.fill_inside inside

theorem Loaded.mono
    {loads : List Elf64Phdr} {start : Loader} {count fewer : Nat}
    (loaded : Loaded services pml4 loads start count s)
    (le : fewer ≤ count) :
    Loaded services pml4 loads start fewer s where
  grew := loaded.grew
  entries := fun k header below =>
    loaded.entries k header (below.trans_le le)
  leaves := fun k header below => loaded.leaves k header (below.trans_le le)
  bytes := fun k header below => loaded.bytes k header (below.trans_le le)

/-- The loop over the program headers, from the entry with index `k` on. -/
theorem loadSegments_cases
    {loads : List Elf64Phdr} {start : Loader}
    (sound : start.Sound pml4)
    (loadable : Loadable services.file loads)
    (provides : services.Provides pml4 loads start)
    (headers : List Elf64Phdr) (k : Nat) (s : Boot)
    (rest : headers.filter (fun header => header.Load) = loads.drop k) :
    Fails services (loadSegments services pml4 headers k s) ∨
      ∃ next, loadSegments services pml4 headers k s = (.success, next) ∧
        next.ke = s.ke ∧ s.loader.failures ≤ next.loader.failures ∧
        (Loaded services pml4 loads start k s →
          next.loader.failures = s.loader.failures →
            Loaded services pml4 loads start loads.length next) := by
  induction headers generalizing k s with
  | nil =>
      refine Or.inr ⟨s, rfl, rfl, le_rfl, fun loaded _ => loaded.mono ?_⟩
      exact List.drop_eq_nil_iff.mp rest.symm
  | cons header headers inductionHypothesis =>
      rw [loadSegments]
      by_cases isLoad : header.Load
      · rw [if_pos isLoad]
        rw [List.filter_cons_of_pos (by simpa using isLoad)] at rest
        have load : loads[k]? = some header := by
          have first := congrArg List.head? rest
          rw [List.head?_cons, List.head?_drop] at first
          exact first.symm
        have others : headers.filter (fun header => header.Load) =
            loads.drop (k + 1) := by
          rw [← List.tail_drop, ← rest, List.tail_cons]
        rcases loadSegment_cases pml4 k s (loadable.proper k header load)
            (provides.low k header load) with failed | ⟨calls, position, eq⟩
        · exact Or.inl (failed.andThen _)
        · rw [eq, andThen]
          have fewer := Loader.mapSegment_failures_le (services.area k)
            header.pVaddr pml4 header.numPages s.loader
          rcases inductionHypothesis (k + 1)
              (segmentLoaded services header pml4 k calls position s) others
            with failed | ⟨next, ran, ke_eq, le, finish⟩
          · exact Or.inl failed
          · refine Or.inr ⟨next, ran, ke_eq, fewer.trans le, ?_⟩
            intro loaded enough
            have same : (segmentLoaded services header pml4 k calls position
                s).loader.failures = s.loader.failures :=
              le_antisymm (le.trans enough.le) fewer
            exact finish (loaded.step sound loadable provides load same)
              (enough.trans same.symm)
      · rw [if_neg isLoad]
        rw [List.filter_cons_of_neg (by simpa using isLoad)] at rest
        exact inductionHypothesis k s rest

/-! ## Headers -/

/-- An ELF file for 64 bits whose headers are where they should be. -/
structure WellFormed (file : EfiFile) : Prop where
  /-- It starts as such a file does. -/
  ident : file.byte 0 = 0x7F#8 ∧ file.byte 1 = 0x45#8 ∧
    file.byte 2 = 0x4C#8 ∧ file.byte 3 = 0x46#8
  /-- It is for 64 bits. -/
  class64 : file.byte 4 = 2#8
  /-- The header is in the file. -/
  header_fits : ehdrSize ≤ file.size
  /-- Program headers have the size that the loader knows. -/
  phentsize_eq : (Elf64Ehdr.at file.byte 0).ePhentsize = phdrSize
  /-- The program headers are in the file. -/
  headers_fit : (Elf64Ehdr.at file.byte 0).ePhoff.toNat +
    phdrSize * (Elf64Ehdr.at file.byte 0).ePhnum ≤ file.size
  /-- The segments can be loaded. -/
  loadable : Loadable file file.loads

theorem ehdr_at_congr
    {left right : Memory} {leftAddress rightAddress : Nat}
    (same : ∀ i, i < ehdrSize →
      left (leftAddress + i) = right (rightAddress + i)) :
    Elf64Ehdr.at left leftAddress = Elf64Ehdr.at right rightAddress := by
  have fields := Memory.field_congr_inside same
  simp only [Elf64Ehdr.at, fields 24 8 (by decide), fields 32 8 (by decide),
    fields 54 2 (by decide), fields 56 2 (by decide)]

theorem phdr_at_congr
    {left right : Memory} {leftAddress rightAddress : Nat}
    (same : ∀ i, i < phdrSize →
      left (leftAddress + i) = right (rightAddress + i)) :
    Elf64Phdr.at left leftAddress = Elf64Phdr.at right rightAddress := by
  have fields := Memory.field_congr_inside same
  have first := fields 0 4 (by decide)
  rw [Nat.add_zero, Nat.add_zero] at first
  simp only [Elf64Phdr.at, first, fields 8 8 (by decide),
    fields 16 8 (by decide), fields 32 8 (by decide), fields 40 8 (by decide)]

/-- The first part of `LoadKernel` reads the header of the file. -/
theorem readHeader_cases
    (file : WellFormed services.file) (s : Boot)
    (rest : Elf64Ehdr → Boot → EfiStatus × Boot) :
    Fails services (readHeader services s rest) ∨
      ∃ next,
        readHeader services s rest =
          rest (Elf64Ehdr.at services.file.byte 0) next ∧
        next.loader = s.loader ∧
        next.entryPoint = (Elf64Ehdr.at services.file.byte 0).eEntry := by
  have size : (BitVec.ofNat 64 ehdrSize).toNat = ehdrSize := by decide
  have fits : (0#64).toNat + (BitVec.ofNat 64 ehdrSize).toNat ≤
      services.file.size := by
    rw [size]
    simpa using file.header_fits
  obtain ⟨all, places⟩ := EfiFile.read_all fits
  rw [size] at places
  have same : ∀ i, i < ehdrSize →
      services.headerBuf.fill 0 ehdrSize (fun i =>
        services.file.byte (services.file.setPosition 0#64 + i)) i =
          services.file.byte i := by
    intro i below
    have inside := @Memory.fill_inside services.headerBuf 0 ehdrSize i
      (fun i => services.file.byte (services.file.setPosition 0#64 + i)) below
    rw [Nat.zero_add] at inside
    rw [inside, places i below]
    simp
  have header : Elf64Ehdr.at (services.headerBuf.fill 0 ehdrSize (fun i =>
      services.file.byte (services.file.setPosition 0#64 + i))) 0 =
        Elf64Ehdr.at services.file.byte 0 := by
    apply ehdr_at_congr
    intro i below
    rw [Nat.zero_add]
    exact same i below
  generalize target : Elf64Ehdr.at services.file.byte 0 = hdr at *
  let Q : EfiStatus × Boot → Prop := fun result => ∃ next : Boot,
    result = rest hdr next ∧ next.loader = s.loader ∧
      next.entryPoint = hdr.eEntry
  rw [readHeader]
  refine call_or Q (call_or Q (call_or Q (call_or Q (call_or Q (call_or Q
    (call_or Q ?_))))))
  simp only [all, size, header, same 0 (by decide), same 1 (by decide),
    same 2 (by decide), same 3 (by decide), same 4 (by decide), file.ident.1,
    file.ident.2.1, file.ident.2.2.1, file.ident.2.2.2, file.class64]
  exact Or.inr ⟨_, rfl, rfl, rfl⟩

/-- The second part of `LoadKernel` reads the program headers. -/
theorem readProgramHeaders_cases
    (file : WellFormed services.file) (s : Boot)
    (rest : List Elf64Phdr → Boot → EfiStatus × Boot) :
    Fails services (readProgramHeaders services
        (Elf64Ehdr.at services.file.byte 0) s rest) ∨
      ∃ next,
        readProgramHeaders services (Elf64Ehdr.at services.file.byte 0) s
            rest = rest services.file.programHeaders next ∧
        next.loader = s.loader := by
  have headers_fit := file.headers_fit
  have listed : services.file.programHeaders =
      (List.range (Elf64Ehdr.at services.file.byte 0).ePhnum).map fun p =>
        Elf64Phdr.at services.file.byte
          ((Elf64Ehdr.at services.file.byte 0).ePhoff.toNat + phdrSize * p) := by
    rw [EfiFile.programHeaders, file.phentsize_eq]
  have number : (Elf64Ehdr.at services.file.byte 0).ePhnum < 2 ^ 16 :=
    Memory.field_lt services.file.byte _ 2
  generalize Elf64Ehdr.at services.file.byte 0 = hdr at *
  have size : (BitVec.ofNat 64 (phdrSize * hdr.ePhnum)).toNat =
      phdrSize * hdr.ePhnum := by
    rw [BitVec.toNat_ofNat, phdrSize]
    omega
  obtain ⟨all, places⟩ := EfiFile.read_all (size ▸ headers_fit)
  rw [size] at places
  have headers : (List.range hdr.ePhnum).map (fun p =>
      Elf64Phdr.at (services.pheaderBuf.fill 0 (phdrSize * hdr.ePhnum)
        fun i => services.file.byte
          (services.file.setPosition hdr.ePhoff + i)) (phdrSize * p)) =
        services.file.programHeaders := by
    rw [listed]
    refine List.map_congr_left fun p member => ?_
    apply phdr_at_congr
    intro i below
    have inside : phdrSize * p + i < phdrSize * hdr.ePhnum := by
      have last : phdrSize * (p + 1) ≤ phdrSize * hdr.ePhnum :=
        Nat.mul_le_mul_left _ (List.mem_range.mp member)
      rw [Nat.mul_succ] at last
      omega
    have read := @Memory.fill_inside services.pheaderBuf 0
      (phdrSize * hdr.ePhnum) (phdrSize * p + i)
      (fun i => services.file.byte
        (services.file.setPosition hdr.ePhoff + i)) inside
    rw [Nat.zero_add] at read
    rw [read, places _ inside, Nat.add_assoc]
  let Q : EfiStatus × Boot → Prop := fun result => ∃ next : Boot,
    result = rest services.file.programHeaders next ∧ next.loader = s.loader
  rw [readProgramHeaders]
  refine call_or Q (call_or Q (call_or Q ?_))
  simp only [all, size, headers]
  exact Or.inr ⟨_, rfl, rfl⟩

/-- What there is when the last part of `LoadKernel` is done. -/
structure Finished (services : BootServices) (pml4 : Word)
    (loads : List Elf64Phdr) (start : Loader) (next : Boot) : Prop
    extends Loaded services pml4 loads start loads.length next where
  /-- The entries are counted. -/
  numKe_eq : next.numKe = loads.length
  /-- The array is in the higher half. -/
  ke_eq : next.ke = vaddr services.ke

/-- The last part of `LoadKernel` loads the segments, unless a call or a table
fails. -/
theorem loadProgram_cases
    {headers loads : List Elf64Phdr}
    (s : Boot)
    (sound : s.loader.Sound pml4)
    (loadable : Loadable services.file loads)
    (provides : services.Provides pml4 loads s.loader)
    (listed : headers.filter (fun header => header.Load) = loads) :
    Fails services (loadProgram services pml4 headers s) ∨
      ((loadProgram services pml4 headers s).2.loader.failures =
          s.loader.failures →
        (loadProgram services pml4 headers s).1 = .success ∧
          Finished services pml4 loads s.loader
            (loadProgram services pml4 headers s).2) := by
  have counted : headers.countP (fun header => header.Load) = loads.length := by
    rw [List.countP_eq_length_filter, listed]
  let Q : EfiStatus × Boot → Prop := fun result =>
    result.2.loader.failures = s.loader.failures →
      result.1 = .success ∧ Finished services pml4 loads s.loader result.2
  rw [loadProgram, counted]
  refine call_or Q ?_
  simp only
  generalize (efiSizeToPages
    (BitVec.ofNat 64 (loads.length * kernelEntrySize))).toNat = pages
  obtain ⟨tables, grew⟩ := Loader.mapRange_grew (alignAddr services.ke)
    (vaddr (alignAddr services.ke)) pages sound
  have counts := @Loader.mapRange_counts pml4 s.loader (alignAddr services.ke)
    (vaddr (alignAddr services.ke)) pages
  generalize Loader.mapRange (alignAddr services.ke)
    (vaddr (alignAddr services.ke)) pml4 pages s.loader = result at grew counts ⊢
  obtain ⟨status, mapped⟩ := result
  have le := counts.failures_le
  cases status with
  | error =>
      refine Or.inr fun enough => ?_
      exact absurd enough (counts.counted rfl).ne'
  | success =>
      rw [andThen]
      rcases loadSegments_cases sound loadable provides headers 0
          { s with
            calls := s.calls + 1
            ke := services.ke
            loader := mapped } listed with
        failed | ⟨next, ran, ke_eq, more, finish⟩
      · exact Or.inl (failed.andThen _)
      rw [ran, andThen]
      refine call_or Q (call_or Q (call_or Q (Or.inr fun enough => ?_)))
      have same : mapped.failures = s.loader.failures :=
        le_antisymm (more.trans enough.le) le
      have loaded := finish
        { grew := ⟨tables, grew.mono (Set.subset_univ _)⟩
          entries := fun _ _ below => absurd below (Nat.not_lt_zero _)
          leaves := fun _ _ below => absurd below (Nat.not_lt_zero _)
          bytes := fun _ _ below => absurd below (Nat.not_lt_zero _) }
        (enough.trans same.symm)
      exact ⟨rfl,
        { grew := loaded.grew
          entries := loaded.entries
          leaves := loaded.leaves
          bytes := loaded.bytes
          numKe_eq := rfl
          ke_eq := congrArg vaddr ke_eq }⟩

/-! ## The kernel in memory -/

/-- The byte that the processor finds at an address. -/
def byteAt (s : Boot) (pml4 address : Word) : Option (BitVec 8) :=
  (mmu s.loader.tables pml4 address).map fun frame =>
    s.mem (frame.toNat + address.toNat % 4096)

/-- The kernel has been loaded: its address space shows the segments, and the
entries list them. -/
structure HoldsKernel (services : BootServices) (pml4 : Word)
    (s : Boot) : Prop where
  /-- Every byte of a segment is that of the file, or zero. -/
  bytes : ∀ header ∈ services.file.loads, ∀ j, j < header.pMemsz.toNat →
    s.byteAt pml4 (header.pVaddr + BitVec.ofNat 64 j) =
      some (if j < header.pFilesz.toNat
        then services.file.byte (header.pOffset.toNat + j) else 0#8)
  /-- There are as many entries as segments. -/
  numKe_eq : s.numKe = services.file.loads.length
  /-- The entries list the segments in order. -/
  entries : ∀ k header, services.file.loads[k]? = some header →
    s.entries k =
      { vaddr := header.pVaddr
        paddr := services.area k
        numPages := header.pagesOccupied }
  /-- The array is named by its address in the higher half. -/
  ke_eq : s.ke = vaddr services.ke
  /-- No table lies in the pages of a segment. -/
  apart : ∀ k header table, services.file.loads[k]? = some header →
    s.loader.IsTable pml4 table →
      ¬ AreaCovers (services.area k) header.pagesOccupied (frameOf table)

/-- A byte of a segment is found in the pages of the segment. -/
theorem Loaded.byteAt_eq
    {loads : List Elf64Phdr} {start : Loader} {k j : Nat}
    {header : Elf64Phdr}
    (loadable : Loadable services.file loads)
    (provides : services.Provides pml4 loads start)
    (loaded : Loaded services pml4 loads start loads.length s)
    (load : loads[k]? = some header)
    (below : j < header.pMemsz.toNat) :
    s.byteAt pml4 (header.pVaddr + BitVec.ofNat 64 j) =
      some (header.image services.file j) := by
  have proper := loadable.proper k header load
  have aligned := provides.aligned k header load
  have low := provides.low k header load
  have ends := proper.ends
  have inPages := proper.fits_pages
  have offset := header.pageOffset_toNat
  have bound : k < loads.length := (List.getElem?_eq_some_iff.mp load).1
  have address : (header.pVaddr + BitVec.ofNat 64 j).toNat =
      header.pVaddr.toNat + j := by
    rw [BitVec.toNat_add, BitVec.toNat_ofNat]
    omega
  -- The page of the segment in which the byte lies.
  obtain ⟨i, index⟩ : ∃ i, (header.pageOffset.toNat + j) / 4096 = i := ⟨_, rfl⟩
  have inside : i < header.numPages := by omega
  have page : pageOf (header.pVaddr + BitVec.ofNat 64 j) =
      pageOf (Pmm.pageAddress header.pVaddr i) := by
    simp only [pageOf, pageSize]
    rw [address, proper.range.toNat_pageAddress inside]
    omega
  have frame := (Pmm.frameOf_pageAddress (i := i) aligned (by omega)).1
  have frameAligned : (Pmm.pageAddress (services.area k) i).toNat % 4096 = 0 := by
    omega
  have found : mmu s.loader.tables pml4 (header.pVaddr + BitVec.ofNat 64 j) =
      some (Pmm.pageAddress (services.area k) i) := by
    rw [Loader.mmu_eq, Loader.leafAt_eq_of_pageOf_eq page,
      loaded.leaves k header bound load i inside,
      alignAddr_of_aligned frameAligned]
    exact next_or_flags frameAligned (by omega) (by decide) (by decide)
  rw [byteAt, found, Option.map_some,
    ← loaded.bytes k header bound load j below, frame, address]
  congr 2
  omega

/-- `LoadKernel` on a well-formed file, with a firmware that gives every
segment pages of its own and never runs out of pages for tables.  It succeeds
unless another call of the firmware fails, and when it succeeds, the kernel is
in memory. -/
theorem loadKernel_holdsKernel
    (services : BootServices) (pml4 : Word) (s : Boot)
    (file : WellFormed services.file)
    (sound : s.loader.Sound pml4)
    (provides : services.Provides pml4 services.file.loads s.loader)
    (enough : (loadKernel services pml4 s).2.loader.failures =
      s.loader.failures) :
    ((∀ n, services.status n = .success) →
      (loadKernel services pml4 s).1 = .success) ∧
    ((loadKernel services pml4 s).1 = .success →
      HoldsKernel services pml4 (loadKernel services pml4 s).2) := by
  have cases : Fails services (loadKernel services pml4 s) ∨
      (loadKernel services pml4 s).1 = .success ∧
        Finished services pml4 services.file.loads s.loader
          (loadKernel services pml4 s).2 := by
    rw [loadKernel] at enough ⊢
    rcases readHeader_cases file s _ with failed | ⟨opened, eq, same, -⟩
    · exact Or.inl failed
    rw [eq] at enough ⊢
    rcases readProgramHeaders_cases file opened _ with
      failed | ⟨read, eq, sameAgain⟩
    · exact Or.inl failed
    rw [← same, ← sameAgain] at sound provides enough ⊢
    rw [eq] at enough ⊢
    rcases loadProgram_cases read sound file.loadable provides rfl with
      failed | done
    · exact Or.inl failed
    · exact Or.inr (done enough)
  constructor
  · intro succeeds
    rcases cases with ⟨-, n, error⟩ | ⟨success, -⟩
    · rw [succeeds n] at error
      contradiction
    · exact success
  · intro success
    have finished := (of_success services
      (fun result => result.1 = .success ∧
        Finished services pml4 services.file.loads s.loader result.2)
      success cases).2
    refine
      { bytes := ?_
        numKe_eq := finished.numKe_eq
        ke_eq := finished.ke_eq
        entries := ?_
        apart := ?_ }
    · intro header member j below
      obtain ⟨k, bound, rfl⟩ := List.mem_iff_getElem.mp member
      exact finished.byteAt_eq file.loadable provides
        (List.getElem?_eq_getElem bound) below
    · intro k header load
      rw [← (file.loadable.proper k header load).numPages_eq]
      exact finished.entries k header
        (List.getElem?_eq_some_iff.mp load).1 load
    · intro k header table load isTable
      rw [← (file.loadable.proper k header load).numPages_eq]
      obtain ⟨tables, grew⟩ := finished.grew
      exact provides.apart k header table load
        (((grew.isTable_iff table).mp isTable).imp_right
          (grew.listed table))

end Boot

/-! ## A sample -/

/-- The bytes of an integer, lowest byte first. -/
def littleEndian (width value : Nat) : List (BitVec 8) :=
  (List.range width).map fun i => BitVec.ofNat 8 (value / 256 ^ i)

/-- The bytes of a program header. -/
def phdrBytes (type offset address filesz memsz : Nat) : List (BitVec 8) :=
  littleEndian 4 type ++ littleEndian 4 5 ++ littleEndian 8 offset ++
    littleEndian 8 address ++ littleEndian 8 0 ++ littleEndian 8 filesz ++
    littleEndian 8 memsz ++ littleEndian 8 0x1000

/-- A file with two segments and a note.  The second segment starts two bytes
before the end of a page. -/
def sampleFileBytes : List (BitVec 8) :=
  [0x7F#8, 0x45#8, 0x4C#8, 0x46#8, 2#8, 1#8, 1#8] ++ littleEndian 17 0 ++
    littleEndian 8 0xFFFFFFFF80000000 ++ littleEndian 8 64 ++
    littleEndian 14 0 ++ littleEndian 2 56 ++ littleEndian 2 3 ++
    littleEndian 6 0 ++
    phdrBytes 1 232 0xFFFFFFFF80000000 4 4 ++ phdrBytes 4 0 0 0 0 ++
    phdrBytes 1 236 0xFFFFFFFF80001FFE 3 8 ++
    [10#8, 11#8, 12#8, 13#8, 21#8, 22#8, 23#8]

def sampleFile : EfiFile where
  size := 239
  byte := fun i => sampleFileBytes.getD i 0#8
  size_lt := by decide

def sampleServices : BootServices where
  file := sampleFile
  status := fun _ => .success
  area := fun k => BitVec.ofNat 64 (0x400000 + k * 0x10000)
  ke := 0x300010#64
  headerBuf := fun _ => 0xAA#8
  pheaderBuf := fun _ => 0xAA#8

def sampleBoot : Boot where
  loader := (Loader.configurePaging 0x200000#64 sampleLoader).2
  mem := fun _ => 0xAA#8
  position := 0
  calls := 0
  entries := fun _ => { vaddr := 0#64, paddr := 0#64, numPages := 0 }
  ke := 0#64
  numKe := 0
  entryPoint := 0#64

def sampleText : Elf64Phdr where
  pType := 1
  pOffset := 232#64
  pVaddr := 0xFFFFFFFF80000000#64
  pFilesz := 4#64
  pMemsz := 4#64

def sampleData : Elf64Phdr where
  pType := 1
  pOffset := 236#64
  pVaddr := 0xFFFFFFFF80001FFE#64
  pFilesz := 3#64
  pMemsz := 8#64

theorem sampleFile_loads : sampleFile.loads = [sampleText, sampleData] := by
  decide +kernel

theorem sampleFile_load_cases
    {k : Nat} {header : Elf64Phdr}
    (load : sampleFile.loads[k]? = some header) :
    (k = 0 ∧ header = sampleText) ∨ (k = 1 ∧ header = sampleData) := by
  rw [sampleFile_loads] at load
  match k, load with
  | 0, rfl => exact Or.inl ⟨rfl, rfl⟩
  | 1, rfl => exact Or.inr ⟨rfl, rfl⟩

theorem sampleFile_wellFormed : Boot.WellFormed sampleFile where
  ident := by decide +kernel
  class64 := by decide +kernel
  header_fits := by decide
  phentsize_eq := by decide +kernel
  headers_fit := by decide +kernel
  loadable :=
    { proper := by
        intro k header load
        rcases sampleFile_load_cases load with ⟨-, rfl⟩ | ⟨-, rfl⟩
        all_goals exact ⟨by decide, by decide, by decide, by decide⟩
      disjoint := by
        intro k l left right page leftLoad rightLoad leftHas rightHas
        have start : sampleText.Occupies page → page = 0xFFFFFFFF80000 := by
          simp only [Elf64Phdr.Occupies, sampleText, BitVec.toNat_ofNat]
          omega
        have later : sampleData.Occupies page → 0xFFFFFFFF80001 ≤ page := by
          simp only [Elf64Phdr.Occupies, sampleData, BitVec.toNat_ofNat]
          omega
        rcases sampleFile_load_cases leftLoad with ⟨rfl, rfl⟩ | ⟨rfl, rfl⟩ <;>
          rcases sampleFile_load_cases rightLoad with ⟨rfl, rfl⟩ | ⟨rfl, rfl⟩
        · rfl
        · have first := start leftHas
          have second := later rightHas
          omega
        · have first := start rightHas
          have second := later leftHas
          omega
        · rfl }

theorem sampleServices_provides :
    sampleServices.Provides 0x200000#64 sampleFile.loads sampleBoot.loader where
  aligned := by
    intro k header load
    rcases sampleFile_load_cases load with ⟨rfl, -⟩ | ⟨rfl, -⟩ <;> decide
  low := by
    intro k header load
    rcases sampleFile_load_cases load with ⟨rfl, rfl⟩ | ⟨rfl, rfl⟩ <;> decide
  disjoint := by
    intro k l left right frame leftLoad rightLoad leftHas rightHas
    have text : sampleText.numPages = 1 := by decide
    have first : frameOf (sampleServices.area 0) = 0x400 := by decide
    have second : frameOf (sampleServices.area 1) = 0x410 := by decide
    rcases sampleFile_load_cases leftLoad with ⟨rfl, rfl⟩ | ⟨rfl, rfl⟩ <;>
      rcases sampleFile_load_cases rightLoad with ⟨rfl, rfl⟩ | ⟨rfl, rfl⟩ <;>
      unfold AreaCovers at leftHas rightHas <;>
      omega
  apart := by
    intro k header table load known covers
    have frames : frameOf table < 0x400 := by
      rcases Loader.configurePaging_isTable sampleLoader_firmware known with
        rfl | listed
      · decide
      · obtain ⟨i, below, eq⟩ := List.mem_map.mp listed
        obtain rfl := Option.some.inj eq
        have small := List.mem_range.mp below
        rw [frameOf, BitVec.toNat_ofNat, pageSize]
        omega
    rcases sampleFile_load_cases load with ⟨rfl, rfl⟩ | ⟨rfl, rfl⟩
    · have start : frameOf (sampleServices.area 0) = 0x400 := by decide
      have above := covers.1
      omega
    · have start : frameOf (sampleServices.area 1) = 0x410 := by decide
      have above := covers.1
      omega

theorem loadKernel_holdsKernel_sample :
    (Boot.loadKernel sampleServices 0x200000#64 sampleBoot).1 = .success ∧
      Boot.HoldsKernel sampleServices 0x200000#64
        (Boot.loadKernel sampleServices 0x200000#64 sampleBoot).2 := by
  obtain ⟨succeeds, holds⟩ := Boot.loadKernel_holdsKernel sampleServices
    0x200000#64 sampleBoot sampleFile_wellFormed
    (Loader.configurePaging_sound sampleLoader_firmware)
    sampleServices_provides (by decide +kernel)
  have success := succeeds fun _ => rfl
  exact ⟨success, holds success⟩

end PivotOs
