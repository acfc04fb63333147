import PivotOs.Loader.Identity
import PivotOs.Loader.MapSegment
import PivotOs.Thread.PmmBitmap

/-!
# The kernel's image in every address space

The loader maps the kernel's image while it loads it, and `map_kernel_entries`
maps it again for every thread, going by the entries that the loader has left.
The two are written apart: `MapAddr` takes its tables from the firmware and is
given aligned addresses, `map_addr` takes frames of the kernel and aligns its
arguments itself, and their flags differ.  Run side by side on one list of
entries they nevertheless agree on every page of every entry, also where entries
overlap and a later one takes the place of an earlier one.
-/

namespace PivotOs

open Paging

/-- An entry of the kernel's image: the pages are frames at an aligned address
that is not null, and they end where the physical and the virtual addresses
do. -/
structure KernelEntry.Proper (entry : KernelEntry) : Prop where
  /-- The frames are aligned. -/
  aligned : entry.paddr.toNat % 4096 = 0
  /-- They do not start at null. -/
  ne_zero : entry.paddr ≠ 0#64
  /-- They end. -/
  fits : entry.paddr.toNat + entry.numPages * 4096 ≤ 2 ^ 64
  /-- The pages are in the higher half. -/
  range : HighRange entry.vaddr entry.numPages

theorem KernelEntry.Proper.pageAddress_ne_zero
    {entry : KernelEntry} {i : Nat}
    (proper : entry.Proper)
    (below : i < entry.numPages) :
    Pmm.pageAddress entry.paddr i ≠ 0#64 := by
  have fits := proper.fits
  intro null
  have value : (Pmm.pageAddress entry.paddr i).toNat = 0 :=
    congrArg BitVec.toNat null
  rw [(Pmm.frameOf_pageAddress proper.aligned (by omega)).1] at value
  apply proper.ne_zero
  exact BitVec.eq_of_toNat_eq (show _ = 0 by omega)

/-- The pages of a list of entries. -/
def entryPages (entries : List KernelEntry) : Set Nat :=
  { page | ∃ entry ∈ entries, page ∈ rangePages entry.vaddr entry.numPages }

/-- The loop of `LoadSegment` for one entry after another. -/
def Loader.mapEntries (p4Tbl : Word) : List KernelEntry → Loader → Loader
  | [], s => s
  | entry :: entries, s =>
      mapEntries p4Tbl entries
        (s.mapSegment entry.paddr entry.vaddr p4Tbl entry.numPages)

theorem Loader.mapEntries_failures_le
    (p4Tbl : Word) (entries : List KernelEntry) (s : Loader) :
    s.failures ≤ (mapEntries p4Tbl entries s).failures := by
  induction entries generalizing s with
  | nil => exact le_rfl
  | cons entry entries inductionHypothesis =>
      exact (mapSegment_failures_le _ _ _ _ s).trans (inductionHypothesis _)

/-- The loader's tables and those of a thread agree on some pages of the
higher half. -/
structure Agree (pml4 root : Word) (pages : Set Nat) (s : Loader)
    (m : Machine) : Prop where
  /-- The loader's tables form a tree. -/
  sound : s.Sound pml4
  /-- Those of the thread do. -/
  tree : m.Tree root
  /-- The bitmap works. -/
  marks : m.pmm.Marks
  /-- The pages are in the higher half. -/
  high : ∀ page ∈ pages, 2 ^ 35 ≤ page
  /-- They have the same frames. -/
  same : ∀ address, pageOf address ∈ pages →
    s.leafAt pml4 address &&& signMask = m.leafAt root address &&& signMask

namespace Agree

variable {pml4 root physical virtual : Word} {pages : Set Nat}
variable {s next : Loader} {m last : Machine}

/-- One round of both loops. -/
theorem step
    {tables : List Word}
    (agree : Agree pml4 root pages s m)
    (grew : Loader.Grew pml4 tables {pageOf virtual} s next)
    (leaf : next.leafAt pml4 virtual = alignAddr physical ||| kernelPtEntry)
    (maps : Machine.Maps root physical virtual userPtEntry m last)
    (high : 2 ^ 35 ≤ pageOf virtual) :
    Agree pml4 root (insert (pageOf virtual) pages) next last := by
  obtain ⟨frames, grown, entry, -⟩ := maps
  have aligned : (alignAddr physical).toNat % 4096 = 0 := by
    rw [alignAddr_toNat]
    omega
  refine
    { sound := grew.sound
      tree := grown.tree
      marks := grown.marks agree.marks
      high := Set.forall_mem_insert.mpr ⟨high, agree.high⟩
      same := ?_ }
  intro address inside
  by_cases here : pageOf address = pageOf virtual
  · rw [Loader.leafAt_eq_of_pageOf_eq here, leaf,
      Machine.leafAt_eq_of_pageOf_eq here, entry,
      or_flags_and_signMask aligned (by decide),
      or_flags_and_signMask aligned (by decide)]
  · have old : pageOf address ∈ pages := by simpa [here] using inside
    -- New tables are in the lower half on both sides.
    rw [grew.leaf_high agree.sound (by simpa using here) (agree.high _ old),
      grown.leaf_other address (by simpa using here), agree.same address old]
    intro frame member
    have fresh := grown.fresh frame (grown.tables_taken frame member)
    have small := fresh.small
    have above := agree.high _ old
    rw [fresh.pageOf_eq]
    omega

/-- The loops over the pages of one entry. -/
theorem range
    {entry : KernelEntry}
    (agree : Agree pml4 root pages s m)
    (proper : entry.Proper)
    {count : Nat}
    (le : count ≤ entry.numPages)
    (enough : (s.mapSegment entry.paddr entry.vaddr pml4 count).failures =
      s.failures)
    (ran : m.mapRange entry.paddr entry.vaddr userPtEntry root count =
      some last)
    (noNull : last.nulls = m.nulls) :
    Agree pml4 root (rangePages entry.vaddr count ∪ pages)
      (s.mapSegment entry.paddr entry.vaddr pml4 count) last := by
  induction count generalizing last with
  | zero =>
      obtain rfl := Option.some.inj ran
      have none : rangePages entry.vaddr 0 = ∅ := by simp [rangePages]
      rwa [none, Set.empty_union]
  | succ count inductionHypothesis =>
      obtain ⟨middle, earlier, round⟩ := Option.bind_eq_some_iff.mp ran
      have le1 := (Machine.mapRange_built earlier).advances.nulls_le
      have le2 := (Machine.mapAddr_advances round).nulls_le
      obtain ⟨fewer, tables, grew, leaf⟩ :=
        Loader.mapSegment_succ agree.sound enough
      have before := inductionHypothesis (Nat.le_of_succ_le le) fewer earlier
        (by omega)
      rw [rangePages_succ, Set.insert_union]
      refine before.step grew leaf ?_ (proper.range.le_pageOf le)
      exact Machine.mapAddr_maps before.tree before.marks
        (proper.pageAddress_ne_zero le) (proper.range.ne_zero le) round
        (by omega)

/-- The loops over the entries. -/
theorem run
    {entries : List KernelEntry}
    (agree : Agree pml4 root pages s m)
    (proper : ∀ entry ∈ entries, entry.Proper)
    (enough : (s.mapEntries pml4 entries).failures = s.failures)
    (ran : m.mapKernelEntries root entries = some last)
    (noNull : last.nulls = m.nulls) :
    Agree pml4 root (entryPages entries ∪ pages) (s.mapEntries pml4 entries)
      last := by
  induction entries generalizing s m pages with
  | nil =>
      obtain rfl := Option.some.inj ran
      have none : entryPages [] = ∅ := by simp [entryPages]
      rwa [none, Set.empty_union]
  | cons entry entries inductionHypothesis =>
      obtain ⟨middle, first, rest⟩ := Option.bind_eq_some_iff.mp ran
      have failures1 := Loader.mapSegment_failures_le entry.paddr entry.vaddr
        pml4 entry.numPages s
      have failures2 := Loader.mapEntries_failures_le pml4 entries
        (s.mapSegment entry.paddr entry.vaddr pml4 entry.numPages)
      rw [Loader.mapEntries] at enough ⊢
      obtain ⟨calls, built, -⟩ := Machine.mapKernelEntries_built rest
      have nulls1 := (Machine.mapRange_built first).advances.nulls_le
      have nulls2 := built.advances.nulls_le
      have here := agree.range (proper entry List.mem_cons_self) le_rfl
        (by omega) first (by omega)
      have later := inductionHypothesis here
        (fun other member => proper other (List.mem_cons_of_mem _ member))
        (by omega) rest (by omega)
      have all : entryPages (entry :: entries) ∪ pages =
          entryPages entries ∪
            (rangePages entry.vaddr entry.numPages ∪ pages) := by
        ext page
        simp only [entryPages, Set.mem_union, Set.mem_ofPred_eq, List.mem_cons,
          exists_eq_or_imp]
        exact (or_congr_left or_comm).trans or_assoc
      rwa [all]

end Agree

/-- `map_kernel_entries` returns. -/
theorem Machine.mapKernelEntries_isSome
    {root : Word} {m : Machine}
    (short : m.pmm.bitmapEntries < 2 ^ 16)
    (marks : m.pmm.Marks)
    (entries : List KernelEntry) :
    (mapKernelEntries root entries m).isSome := by
  induction entries generalizing m with
  | nil => rfl
  | cons entry entries inductionHypothesis =>
      obtain ⟨next, mapped⟩ : ∃ next, mapRange entry.paddr entry.vaddr
          userPtEntry root entry.numPages m = some next :=
        Option.isSome_iff_exists.mp (mapRange_isSome short marks _)
      have marked := (mapRange_built mapped).advances.marked
      rw [mapKernelEntries, mapped]
      exact inductionHypothesis (lt_of_eq_of_lt marked.entries_eq short)
        (marked.marks marks)

/-- The loader's loop on one page table and `map_kernel_entries` on another
give every page of every entry the same translation, when no allocation fails
on either side.  `map_kernel_entries` returns. -/
theorem mapEntries_translateAddr_eq
    (pml4 root : Word) (s : Loader) (pmm : Pmm) (m : Machine)
    (entries : List KernelEntry)
    (sound : s.Sound pml4)
    (tree : m.Tree root)
    (marks : m.pmm.Marks)
    (proper : ∀ entry ∈ entries, entry.Proper)
    (enough : (s.mapEntries pml4 entries).failures = s.failures) :
    (m.pmm.bitmapEntries < 2 ^ 16 →
      (m.mapKernelEntries root entries).isSome) ∧
    ∀ last, m.mapKernelEntries root entries = some last →
      last.nulls = m.nulls →
        ∀ entry ∈ entries, ∀ i, i < entry.numPages →
          ((s.mapEntries pml4 entries).machine pml4 pmm).translateAddr
              (Pmm.pageAddress entry.vaddr i) pml4 =
            last.translateAddr (Pmm.pageAddress entry.vaddr i) root := by
  refine ⟨fun short => Machine.mapKernelEntries_isSome short marks entries, ?_⟩
  intro last ran noNull entry member i below
  have start : Agree pml4 root ∅ s m :=
    { sound := sound
      tree := tree
      marks := marks
      high := by simp
      same := by simp }
  have finished := start.run proper enough ran noNull
  rw [Machine.translateAddr_eq_of_chosen _ (ite_self pml4),
    Machine.translateAddr_eq _ tree.root_ne_zero]
  exact finished.same _ (Or.inl ⟨entry, member, i, below, rfl⟩)

/-! ## Samples -/

/-- Three entries of a small image.  The second starts in the middle of a page
and overlaps the first, and the third takes the place of a page of both. -/
def sampleEntries : List KernelEntry :=
  [{ vaddr := 0xFFFFFFFF80000000#64, paddr := 0x400000#64, numPages := 2 },
    { vaddr := 0xFFFFFFFF80001800#64, paddr := 0x410000#64, numPages := 2 },
    { vaddr := 0xFFFFFFFF80001000#64, paddr := 0x420000#64, numPages := 1 }]

/-- The loader after `ConfigurePaging`. -/
def pagedLoader : Loader := (Loader.configurePaging 0x200000#64 sampleLoader).2

theorem sampleEntries_proper : ∀ entry ∈ sampleEntries, entry.Proper := by
  intro entry member
  simp only [sampleEntries, List.mem_cons, List.not_mem_nil, or_false] at member
  rcases member with rfl | rfl | rfl
  all_goals
    exact ⟨by decide, by decide, by decide, by decide, by decide⟩

theorem mapEntries_translateAddr_eq_sample :
    ∃ last, Machine.sampleMachine.mapKernelEntries 0x1000#64 sampleEntries =
        some last ∧
      last.nulls = Machine.sampleMachine.nulls ∧
      last.translateAddr 0xFFFFFFFF80001800#64 0x1000#64 = 0x420000#64 ∧
      ((pagedLoader.mapEntries 0x200000#64 sampleEntries).machine 0x200000#64
          Machine.sampleMachine.pmm).translateAddr 0xFFFFFFFF80001800#64
            0x200000#64 = 0x420000#64 := by
  have ran : (Machine.sampleMachine.mapKernelEntries 0x1000#64 sampleEntries).map
      (fun last => (last.nulls,
        last.translateAddr 0xFFFFFFFF80001800#64 0x1000#64)) =
        some (0, 0x420000#64) := by decide +kernel
  obtain ⟨last, mapped, result⟩ := Option.map_eq_some_iff.mp ran
  obtain ⟨noNull, translated⟩ := Prod.mk.inj result
  obtain ⟨-, same⟩ := mapEntries_translateAddr_eq 0x200000#64 0x1000#64
    pagedLoader Machine.sampleMachine.pmm Machine.sampleMachine sampleEntries
    (Loader.configurePaging_sound sampleLoader_firmware)
    Machine.sampleMachine_tree Machine.sampleMachine_marks sampleEntries_proper
    (by decide +kernel)
  refine ⟨last, mapped, noNull, translated, ?_⟩
  exact (same last mapped noNull
    { vaddr := 0xFFFFFFFF80001800#64, paddr := 0x410000#64, numPages := 2 }
    (by simp [sampleEntries]) 0 (by decide)).trans translated

/-- An entry at the end of the address space, with a page too many. -/
def topEntry : KernelEntry where
  vaddr := 0xFFFFFFFFFFFFF000#64
  paddr := 0x400000#64
  numPages := 2

/-- A page, and an entry over it whose frames run past the last one. -/
def lastFrameEntries : List KernelEntry :=
  [{ vaddr := 0xFFFFFFFF80001000#64, paddr := 0x400000#64, numPages := 1 },
    { vaddr := 0xFFFFFFFF80000000#64
      paddr := 0xFFFFFFFFFFFFF000#64
      numPages := 2 }]

/-- The translation of an address after the loader's loop, and how often
`AllocTable` failed. -/
def loaderResult (entries : List KernelEntry) (address : Word) : Nat × Word :=
  let s := pagedLoader.mapEntries 0x200000#64 entries
  (s.failures, (s.machine 0x200000#64 Machine.sampleMachine.pmm).translateAddr address
    0x200000#64)

/-- The same after `map_kernel_entries`. -/
def kernelResult (entries : List KernelEntry) (address : Word) :
    Option (Nat × Word) :=
  (Machine.sampleMachine.mapKernelEntries 0x1000#64 entries).map fun last =>
    (last.nulls, last.translateAddr address 0x1000#64)

/-- Where the pages of an entry run past the end of the address space,
`map_addr` skips the null page, which `MapAddr` maps; and it skips the null
frame, which `MapAddr` puts in the place of an earlier one. -/
theorem wrapping_entries_differ :
    (loaderResult [topEntry] (Pmm.pageAddress topEntry.vaddr 1) =
        (0, 0x401000#64) ∧
      kernelResult [topEntry] (Pmm.pageAddress topEntry.vaddr 1) =
        some (0, 0#64)) ∧
    (loaderResult lastFrameEntries 0xFFFFFFFF80001000#64 = (0, 0#64) ∧
      kernelResult lastFrameEntries 0xFFFFFFFF80001000#64 =
        some (0, 0x400000#64)) := by
  decide +kernel

end PivotOs
