import PivotOs.Loader.Defs
import PivotOs.Pmm.Init
import PivotOs.Thread.Prepare

/-!
# The frame bitmap in the page tables of a thread

`ParseMMAP` stores in `bitmap_size` how many pages the frame bitmap has.
`map_pmm` takes the field for a number of bytes and divides by the page size
again, so it maps one page for every 4096 pages of the bitmap.
-/

namespace PivotOs

open Paging

namespace Machine

variable {s next last : Machine} {root : Word}

/-- The processor finds the page of an address at the address itself. -/
def IdentityMapped (s : Machine) (root address : Word) : Prop :=
  mmu s.tables root address = some (alignAddr address)

instance (s : Machine) (root address : Word) :
    Decidable (s.IdentityMapped root address) :=
  inferInstanceAs (Decidable (_ = _))

/-- Every byte of the rows of the frame bitmap is in a page that is mapped at
its own address. -/
def MapsBitmap (info : MemInfo) (root : Word) (s : Machine) : Prop :=
  ∀ byte, byte < info.bitmapEntries * 8 →
    s.IdentityMapped root (info.bitmap + BitVec.ofNat 64 byte)

/-! ## A range of pages -/

/-- Pages from a start on, none of which `alloc_frame` may hand out. -/
structure Reserved (m : Pmm) (start : Word) (count : Nat) : Prop where
  /-- The range starts with a page. -/
  aligned : start.toNat % 4096 = 0
  /-- It does not start at null. -/
  notNull : start ≠ 0#64
  /-- It is in the lower half. -/
  low : start.toNat + count * 4096 ≤ 2 ^ 47
  /-- Its frames are not free. -/
  kept : ∀ i, i < count → ¬ m.Free (frameOf start + i)

namespace Reserved

variable {m : Pmm} {start : Word} {count i : Nat}

theorem mono
    {less : Nat}
    (reserved : Reserved m start count)
    (fewer : less ≤ count) :
    Reserved m start less where
  aligned := reserved.aligned
  notNull := reserved.notNull
  low := le_trans (Nat.add_le_add_left (Nat.mul_le_mul_right 4096 fewer) _)
    reserved.low
  kept := fun i below => reserved.kept i (below.trans_le fewer)

theorem page
    (reserved : Reserved m start count)
    (below : i < count) :
    (Pmm.pageAddress start i).toNat = start.toNat + i * 4096 ∧
      pageOf (Pmm.pageAddress start i) = frameOf start + i := by
  have low := reserved.low
  obtain ⟨value, frame⟩ := Pmm.frameOf_pageAddress reserved.aligned
    (show start.toNat + i * 4096 < 2 ^ 64 by omega)
  have small : frameOf (Pmm.pageAddress start i) < 2 ^ 36 := by
    rw [frameOf, value, pageSize]
    omega
  exact ⟨value, (pageOf_eq_frameOf small).trans frame⟩

theorem page_ne_zero
    (reserved : Reserved m start count)
    (below : i < count) :
    Pmm.pageAddress start i ≠ 0#64 := by
  intro null
  have value := (reserved.page below).1
  rw [null, BitVec.toNat_ofNat] at value
  apply reserved.notNull
  apply BitVec.eq_of_toNat_eq
  rw [BitVec.toNat_ofNat]
  omega

theorem page_aligned
    (reserved : Reserved m start count)
    (below : i < count) :
    (Pmm.pageAddress start i).toNat % 4096 = 0 := by
  have aligned := reserved.aligned
  rw [(reserved.page below).1]
  omega

/-- No page of the range is that of a frame that was free. -/
theorem pageOf_ne_fresh
    {frame : Word}
    (reserved : Reserved m start count)
    (below : i < count)
    (fresh : m.Fresh frame) :
    pageOf (Pmm.pageAddress start i) ≠ pageOf frame := by
  intro same
  rw [(reserved.page below).2, fresh.pageOf_eq] at same
  exact reserved.kept i below (same ▸ fresh.free)

end Reserved

section Range

variable {start flags : Word} {count : Nat}

/-- Pages behind those that `map_range` maps keep their entries. -/
theorem mapRange_leaf_behind
    {i whole : Nat}
    (tree : s.Tree root)
    (marks : s.pmm.Marks)
    (reserved : Reserved s.pmm start whole)
    (mapped : mapRange start start flags root count s = some last)
    (enough : last.nulls = s.nulls)
    (behind : count ≤ i)
    (below : i < whole) :
    last.leafAt root (Pmm.pageAddress start i) =
      s.leafAt root (Pmm.pageAddress start i) := by
  obtain ⟨tables, grown, -⟩ :=
    (mapRange_built mapped).grown tree marks enough
  apply grown.leaf_other
  · rintro ⟨call, member, -, -, same⟩
    obtain ⟨j, before, rfl⟩ := mem_rangeCalls.mp member
    rw [(reserved.page below).2,
      (reserved.page ((before.trans_le behind).trans below)).2] at same
    omega
  · intro table member
    exact reserved.pageOf_ne_fresh below
      (grown.fresh table (grown.tables_taken table member))

/-- `map_range` maps the pages of an identity range. -/
theorem mapRange_leaf
    (tree : s.Tree root)
    (marks : s.pmm.Marks)
    (reserved : Reserved s.pmm start count)
    (mapped : mapRange start start flags root count s = some last)
    (enough : last.nulls = s.nulls) :
    ∀ i, i < count → last.leafAt root (Pmm.pageAddress start i) =
      Pmm.pageAddress start i ||| flags := by
  induction count generalizing last with
  | zero => simp
  | succ count inductionHypothesis =>
      obtain ⟨next, earlier, round⟩ := Option.bind_eq_some_iff.mp mapped
      have before := (mapRange_built earlier).advances
      have after := mapAddr_advances round
      have enoughBefore : next.nulls = s.nulls :=
        le_antisymm (enough ▸ after.nulls_le) before.nulls_le
      obtain ⟨tables, grown, -⟩ :=
        (mapRange_built earlier).grown tree marks enoughBefore
      have here := Nat.lt_succ_self count
      obtain ⟨new, newGrown, leaf, -⟩ := mapAddr_maps grown.tree
        (grown.marks marks) (reserved.page_ne_zero here)
        (reserved.page_ne_zero here) round (enough.trans enoughBefore.symm)
      intro i below
      cases Nat.lt_succ_iff_lt_or_eq.mp below with
      | inr last =>
          rw [last, leaf, alignAddr_of_aligned (reserved.page_aligned here)]
      | inl first =>
          rw [← inductionHypothesis (reserved.mono (Nat.le_succ count)) earlier
            enoughBefore i first]
          apply newGrown.leaf_other
          · rw [Set.mem_singleton_iff, (reserved.page below).2,
              (reserved.page here).2]
            omega
          · intro table member
            exact reserved.pageOf_ne_fresh below
              (Pmm.Fresh.of_marked before.marked
                (newGrown.fresh table (newGrown.tables_taken table member)))

end Range

/-! ## The bitmap -/

/-- An address of a page is mapped at itself when the page is. -/
theorem identityMapped_iff_page
    {address page : Word}
    (aligned : alignAddr address = page) :
    s.IdentityMapped root address ↔ s.IdentityMapped root page := by
  have same : pageOf address = pageOf page := by
    rw [← aligned, pageOf_alignAddr]
  have alignedPage : alignAddr page = page := by
    rw [← aligned]
    apply alignAddr_of_aligned
    rw [alignAddr_toNat]
    omega
  rw [IdentityMapped, IdentityMapped, mmu_eq, mmu_eq, aligned, alignedPage,
    leafAt_eq_of_pageOf_eq same]

/-- The bytes of the bitmap are those of its pages, the end of the last one
apart. -/
theorem mapsBitmap_iff
    {memPages : Nat} {bitmap : Word}
    (small : memPages < 2 ^ 52)
    (reserved : Reserved s.pmm bitmap
      (MemInfo.stored bitmap memPages).bitmapSize) :
    next.MapsBitmap (MemInfo.stored bitmap memPages) root ↔
      ∀ i, i < (MemInfo.stored bitmap memPages).bitmapSize →
        next.IdentityMapped root (Pmm.pageAddress bitmap i) := by
  have bitmap_eq : (MemInfo.stored bitmap memPages).bitmap = bitmap := rfl
  have entries := MemInfo.stored_bitmapEntries bitmap small
  have size := MemInfo.stored_bitmapSize bitmap small
  have aligned := reserved.aligned
  have low := reserved.low
  have inPage : ∀ byte, byte < (memPages + 63) / 64 * 8 →
      byte / 4096 < (MemInfo.stored bitmap memPages).bitmapSize ∧
        alignAddr (bitmap + BitVec.ofNat 64 byte) =
          Pmm.pageAddress bitmap (byte / 4096) := by
    intro byte below
    have page : byte / 4096 < (MemInfo.stored bitmap memPages).bitmapSize := by
      omega
    refine ⟨page, ?_⟩
    apply BitVec.eq_of_toNat_eq
    rw [alignAddr_toNat, (reserved.page page).1, BitVec.toNat_add,
      BitVec.toNat_ofNat]
    omega
  constructor
  · intro mapped i below
    have first : i * 4096 < (memPages + 63) / 64 * 8 := by omega
    have byte := mapped (i * 4096) (by rw [entries]; exact first)
    rw [bitmap_eq, identityMapped_iff_page (inPage _ first).2,
      Nat.mul_div_cancel i (by decide)] at byte
    exact byte
  · intro mapped byte below
    rw [entries] at below
    rw [bitmap_eq, identityMapped_iff_page (inPage byte below).2]
    exact mapped _ (inPage byte below).1

/-- Calls of `map_range` return. -/
theorem mapRange_isSome
    {physical virtual flags : Word}
    (short : s.pmm.bitmapEntries < 2 ^ 16)
    (marks : s.pmm.Marks)
    (count : Nat) :
    (mapRange physical virtual flags root count s).isSome := by
  induction count with
  | zero => rfl
  | succ count inductionHypothesis =>
      obtain ⟨next, mapped⟩ := Option.isSome_iff_exists.mp inductionHypothesis
      have marked := (mapRange_built mapped).advances.marked
      rw [mapRange, mapped]
      exact mapAddr_isSome (lt_of_eq_of_lt marked.entries_eq short)
        (marked.marks marks) _ _ _ _

/-- `map_pmm` returns, and when no frame was missing, the whole bitmap is
mapped at its own address if and only if it has one page at most, or those of
its pages that `map_pmm` leaves out were mapped before. -/
theorem mapPmm_mapsBitmap_iff
    (info : KernelInfo) (memPages : Nat) (table : Word) (s : Machine)
    (small : memPages < 2 ^ 52)
    (bitmapSize_eq : info.bitmapSize =
      (MemInfo.stored info.bitmap memPages).bitmapSize)
    (reserved : Reserved s.pmm info.bitmap info.bitmapSize)
    (tree : s.Tree table)
    (marks : s.pmm.Marks) :
    (s.pmm.bitmapEntries < 2 ^ 16 → (mapPmm info table s).isSome) ∧
    ∀ last, mapPmm info table s = some last → last.nulls = s.nulls →
      (last.MapsBitmap (MemInfo.stored info.bitmap memPages) table ↔
        memPages ≤ 32768 ∨
          ∀ i, info.pmmPages ≤ i → i < info.bitmapSize →
            s.IdentityMapped table (Pmm.pageAddress info.bitmap i)) := by
  refine ⟨fun short => mapRange_isSome short marks _, ?_⟩
  intro last mapped enough
  have size := MemInfo.stored_bitmapSize info.bitmap small
  rw [← bitmapSize_eq] at size
  have pages : info.pmmPages = (info.bitmapSize + 4095) / 4096 := by
    rw [KernelInfo.pmmPages, divCeil, pageSize, wrap_of_lt (by omega)]
  have mappedBelow : ∀ i, i < info.pmmPages → i < info.bitmapSize →
      last.IdentityMapped table (Pmm.pageAddress info.bitmap i) := by
    intro i below inside
    have fewer : info.pmmPages ≤ info.bitmapSize := by omega
    have leaf := mapRange_leaf tree marks (reserved.mono fewer) mapped enough
      i below
    have value := (reserved.page inside).1
    have low := reserved.low
    rw [IdentityMapped, mmu_eq, leaf,
      alignAddr_of_aligned (reserved.page_aligned inside)]
    exact next_or_flags (reserved.page_aligned inside) (by omega) (by decide)
      (by decide)
  have keptBehind : ∀ i, info.pmmPages ≤ i → i < info.bitmapSize →
      (last.IdentityMapped table (Pmm.pageAddress info.bitmap i) ↔
        s.IdentityMapped table (Pmm.pageAddress info.bitmap i)) := by
    intro i behind inside
    rw [IdentityMapped, IdentityMapped, mmu_eq, mmu_eq,
      mapRange_leaf_behind tree marks reserved mapped enough behind inside]
  rw [mapsBitmap_iff small (s := s) (by rw [← bitmapSize_eq]; exact reserved),
    ← bitmapSize_eq]
  constructor
  · intro all
    right
    intro i behind inside
    exact (keptBehind i behind inside).mp (all i inside)
  · intro covered i inside
    by_cases below : i < info.pmmPages
    · exact mappedBelow i below inside
    · have behind := Nat.le_of_not_lt below
      cases covered with
      | inl fits => omega
      | inr before =>
          exact (keptBehind i behind inside).mpr (before i behind inside)

/-- A kernel that knows its frame bitmap and nothing else. -/
def bitmapInfo (bitmap : Word) (memPages : Nat) : KernelInfo where
  ke := []
  bitmap := bitmap
  bitmapSize := (MemInfo.stored bitmap memPages).bitmapSize
  buffer := 0#64
  bpp := 0#8
  pixelsPerScanline := 0#32
  verticalRes := 0#32
  lapic := 0#64
  x2mode := true
  stack := 0#64
  heap := []

/-- The sample machine with this much memory, all of it in use but the frames 3
to 63. -/
def largeMachine (memPages : Nat) : Machine :=
  { sampleMachine with
    pmm :=
      { bitmap := fun row => if row = 0 then 0b111#64 else BitVec.allOnes 64
        bitmapEntries := (memPages + 63) / 64
        memPages := memPages } }

theorem largeMachine_free
    {memPages k : Nat}
    (free : (largeMachine memPages).pmm.Free k) :
    k < 64 := by
  by_contra high
  apply free.2
  have row : k / 64 ≠ 0 := by omega
  change (if k / 64 = 0 then 0b111#64 else BitVec.allOnes 64).getLsbD (k % 64) =
    true
  rw [if_neg row, BitVec.getLsbD_allOnes]
  exact decide_eq_true (Nat.mod_lt k (by decide))

theorem largeMachine_marks
    {memPages : Nat}
    (large : 64 ≤ memPages) :
    (largeMachine memPages).pmm.Marks := by
  intro k free
  have below := largeMachine_free free
  change k ≤ memPages
  omega

theorem largeMachine_reserved
    {memPages count : Nat}
    (few : count ≤ 2 ^ 22) :
    Reserved (largeMachine memPages).pmm 0x100000#64 count where
  aligned := by decide
  notNull := by decide
  low := by
    rw [BitVec.toNat_ofNat]
    omega
  kept := by
    intro i below free
    have high : frameOf 0x100000#64 = 256 := by decide
    have low := largeMachine_free free
    omega

theorem largeMachine_tree {memPages : Nat} :
    (largeMachine memPages).Tree 0x1000#64 := by
  refine Tree.of_cleared (fun _ => rfl) ?_ (by decide) (by decide)
  simp [Pmm.Used, largeMachine, frameOf, pageSize, Pmm.bitmapRowBits]

theorem mapPmm_mapsBitmap_iff_sample :
    ∃ last, mapPmm (bitmapInfo 0x100000#64 32768) 0x1000#64
        (largeMachine 32768) = some last ∧
      last.nulls = 0 ∧
      last.MapsBitmap (MemInfo.stored 0x100000#64 32768) 0x1000#64 := by
  have observed : (mapPmm (bitmapInfo 0x100000#64 32768) 0x1000#64
      (largeMachine 32768)).map nulls = some 0 := by decide +kernel
  obtain ⟨last, mapped, nulls⟩ := Option.map_eq_some_iff.mp observed
  refine ⟨last, mapped, nulls, ?_⟩
  exact ((mapPmm_mapsBitmap_iff (bitmapInfo 0x100000#64 32768) 32768 0x1000#64
    (largeMachine 32768) (by decide) rfl (largeMachine_reserved (by decide))
    largeMachine_tree (largeMachine_marks (by decide))).2 last mapped
      nulls).mpr (Or.inl le_rfl)

/-- With 32832 pages of memory the bitmap has 513 rows, and the last one is on
a page that is not mapped. -/
theorem second_bitmap_page_unmapped :
    ¬ ∀ (info : KernelInfo) (memPages : Nat) (table : Word) (s last : Machine),
      memPages < 2 ^ 52 →
      info.bitmapSize = (MemInfo.stored info.bitmap memPages).bitmapSize →
      Reserved s.pmm info.bitmap info.bitmapSize → s.Tree table →
      s.pmm.Marks → mapPmm info table s = some last → last.nulls = s.nulls →
        last.MapsBitmap (MemInfo.stored info.bitmap memPages) table := by
  intro always
  have observed : (mapPmm (bitmapInfo 0x100000#64 32832) 0x1000#64
      (largeMachine 32832)).map (fun last => (last.nulls,
        decide (last.IdentityMapped 0x1000#64 0x101000#64))) =
      some (0, false) := by decide +kernel
  obtain ⟨last, mapped, same⟩ := Option.map_eq_some_iff.mp observed
  obtain ⟨nulls, unmapped⟩ := Prod.mk.inj same
  have maps := always (bitmapInfo 0x100000#64 32832) 32832 0x1000#64
    (largeMachine 32832) last (by decide) rfl
    (largeMachine_reserved (by decide)) largeMachine_tree
    (largeMachine_marks (by decide)) mapped nulls
  exact of_decide_eq_false unmapped (maps 4096 (by decide))

end Machine
end PivotOs
