import PivotOs.Pmm.Init

/-!
# Which frames `init_pmm` frees

The bits that `init_pmm` should leave clear are those of the frames that lie in
descriptors of type 3, 4 or 7.  It leaves clear those of the descriptors whose
type has such a low byte, since `uint8_t type` drops the rest of the field.
The rows that the function accesses are listed as it goes through them, next
to its loops, and all belong to the bitmap.
-/

namespace PivotOs

namespace MemInfo

/-- The bitmap that the kernel finds, whatever its memory holds. -/
def pmm (info : MemInfo) (prior : Nat → Word) : Pmm where
  bitmap := prior
  bitmapEntries := info.bitmapEntries
  memPages := info.memPages

end MemInfo

namespace Pmm

variable {m : Pmm}

/-! ## Rows that are accessed -/

/-- The rows that `pmm_set_bit` accesses. -/
def setBitRows (m : Pmm) (address : Word) : List Nat :=
  if address = 0#64 then []
  else if m.memPages < frameOf address then []
  else [frameOf address / bitmapRowBits]

/-- The rows that `pmm_clear_bit` accesses. -/
def clearBitRows (address : Word) : List Nat :=
  if address = 0#64 then [] else [frameOf address / bitmapRowBits]

/-- The rows that `pmm_clear_area` accesses, newest first. -/
def clearAreaRows (start : Word) : Nat → List Nat
  | 0 => []
  | i + 1 => clearBitRows (pageAddress start i) ++ clearAreaRows start i

/-- The rows that the walk over the memory map accesses. -/
def freeUsableRows (map : MemoryMap) : (entries offset : Nat) → List Nat
  | 0, _ => []
  | entries + 1, offset =>
      let desc := map.descAt offset
      (if desc.Usable then clearAreaRows desc.physicalStart desc.count.toNat
        else []) ++ freeUsableRows map entries (offset + map.mmapDescSize)

/-- The rows that `init_pmm` accesses. -/
def initPmmRows (m : Pmm) (map : MemoryMap) : List Nat :=
  List.range m.bitmapEntries ++ m.setBitRows 0x8000#64 ++
    freeUsableRows map (map.mmapSize / map.mmapDescSize) 0

theorem setRow_of_ne
    {row other : Nat} (value : Word)
    (different : other ≠ row) :
    (m.setRow row value).bitmap other = m.bitmap other := by
  simp [setRow, different]

theorem pmmSetBit_bitmap
    {address : Word} {row : Nat}
    (apart : row ∉ m.setBitRows address) :
    (m.pmmSetBit address).bitmap row = m.bitmap row := by
  unfold pmmSetBit setBitRows at *
  split at apart
  · rw [if_pos ‹_›]
  · rw [if_neg ‹_›]
    split at apart
    · rw [if_pos ‹_›]
    · rw [if_neg ‹_›]
      exact setRow_of_ne _ (List.ne_of_not_mem_cons apart)

theorem pmmClearBit_bitmap
    {address : Word} {row : Nat}
    (apart : row ∉ clearBitRows address) :
    (m.pmmClearBit address).bitmap row = m.bitmap row := by
  unfold pmmClearBit clearBitRows at *
  split at apart
  · rw [if_pos ‹_›]
  · rw [if_neg ‹_›]
    exact setRow_of_ne _ (List.ne_of_not_mem_cons apart)

theorem pmmClearArea_bitmap
    {start : Word} {count row : Nat}
    (apart : row ∉ clearAreaRows start count) :
    (m.pmmClearArea start count).bitmap row = m.bitmap row := by
  induction count with
  | zero => rfl
  | succ count inductionHypothesis =>
      rw [clearAreaRows, List.mem_append, not_or] at apart
      rw [pmmClearArea, pmmClearBit_bitmap apart.1, inductionHypothesis apart.2]

theorem freeUsable_bitmap
    {map : MemoryMap} {entries offset row : Nat}
    (apart : row ∉ freeUsableRows map entries offset) :
    (freeUsable map entries offset m).bitmap row = m.bitmap row := by
  induction entries generalizing offset m with
  | zero => rfl
  | succ entries inductionHypothesis =>
      rw [freeUsableRows, List.mem_append, not_or] at apart
      rw [freeUsable, inductionHypothesis apart.2]
      split
      · rename_i usable
        rw [if_pos usable] at apart
        exact pmmClearArea_bitmap apart.1
      · rfl

/-- `init_pmm` leaves every row alone that is not on the list. -/
theorem initPmm_bitmap
    {map : MemoryMap} {row : Nat}
    (apart : row ∉ m.initPmmRows map) :
    (m.initPmm map).bitmap row = m.bitmap row := by
  simp only [initPmmRows, List.mem_append, List.mem_range, not_or] at apart
  rw [initPmm, freeUsable_bitmap apart.2,
    pmmSetBit_bitmap (m := m.fillRows) apart.1.2, fillRows]
  exact if_neg apart.1.1

theorem mem_clearAreaRows
    {start : Word} {count row : Nat}
    (member : row ∈ clearAreaRows start count) :
    ∃ i, i < count ∧ pageAddress start i ≠ 0#64 ∧
      row = frameOf (pageAddress start i) / bitmapRowBits := by
  induction count with
  | zero => cases member
  | succ count inductionHypothesis =>
      rw [clearAreaRows, List.mem_append] at member
      cases member with
      | inl here =>
          unfold clearBitRows at here
          split at here
          · cases here
          · exact ⟨count, count.lt_succ_self, ‹_›, List.mem_singleton.mp here⟩
      | inr before =>
          obtain ⟨i, below, found⟩ := inductionHypothesis before
          exact ⟨i, Nat.lt_succ_of_lt below, found⟩

/-- The walk over the map accesses the rows of the frames it frees. -/
theorem mem_freeUsableRows
    {map : MemoryMap} {entries first row : Nat}
    (member : row ∈ freeUsableRows map entries (first * map.mmapDescSize)) :
    ∃ i k, first ≤ i ∧ i < first + entries ∧ (map.desc i).Usable ∧
      (map.desc i).Frees k ∧ row = k / bitmapRowBits := by
  induction entries generalizing first with
  | zero => cases member
  | succ entries inductionHypothesis =>
      rw [freeUsableRows, List.mem_append, ← Nat.succ_mul] at member
      cases member with
      | inl here =>
          split at here
          · rename_i usable
            obtain ⟨i, below, notNull, rfl⟩ := mem_clearAreaRows here
            exact ⟨first, _, le_rfl, by omega, usable, ⟨i, below, notNull, rfl⟩,
              rfl⟩
          · cases here
      | inr later =>
          obtain ⟨i, k, after, before, found⟩ := inductionHypothesis later
          exact ⟨i, k, by omega, by omega, found⟩

end Pmm

/-! ## The exact bits -/

namespace MemoryMap

variable {map : MemoryMap} {memPages : Nat}

/-- After `init_pmm` the bit of a frame is clear exactly when the frame is not
frame 0 and lies in a descriptor of type 3, 4 or 7, the frame of the trampoline
apart, and no row behind the bitmap was accessed. -/
structure InitExact (map : MemoryMap) (m : Pmm) : Prop where
  /-- The bits. -/
  clear_iff : ∀ k, k / 64 < m.bitmapEntries → k ≠ 8 →
    (¬ (m.initPmm map).Used k ↔ k ≠ 0 ∧ map.Conventional k)
  /-- The rows. -/
  rows_lt : ∀ row ∈ m.initPmmRows map, row < m.bitmapEntries

/-- A descriptor whose type has the low byte 3, 4 or 7, without being 3, 4 or
7, has no frame but frame 0 and that of the trampoline. -/
def NarrowsSafely (map : MemoryMap) : Prop :=
  ∀ i, i < map.entries → (map.desc i).Usable → ¬ (map.desc i).Conventional →
    ∀ k, (map.desc i).Covers k → k = 0 ∨ k = 8

theorem Clears.lt_memPages
    {k : Nat}
    (wellFormed : map.WellFormed memPages)
    (clears : map.Clears k) :
    k < memPages := by
  obtain ⟨i, inside, -, covers⟩ := clears
  have ends := wellFormed.ends i inside
  have aligned := wellFormed.aligned i inside
  unfold MmapDesc.Covers frameOf pageSize at covers
  omega

/-- Every row that `init_pmm` accesses is one of the bitmap. -/
theorem WellFormed.rows_lt
    {m : Pmm}
    (wellFormed : map.WellFormed memPages)
    (small : memPages < 2 ^ 52)
    (rows : m.bitmapEntries = (memPages + 63) / 64)
    (pages : m.memPages = memPages)
    {row : Nat}
    (member : row ∈ m.initPmmRows map) :
    row < m.bitmapEntries := by
  simp only [Pmm.initPmmRows, List.mem_append, List.mem_range] at member
  rcases member with (filled | trampoline) | walked
  · exact filled
  · unfold Pmm.setBitRows at trampoline
    split at trampoline
    · cases trampoline
    · split at trampoline
      · cases trampoline
      · rename_i notNull inside
        have eight : frameOf 0x8000#64 = 8 := by decide
        rw [eight] at inside
        rw [List.mem_singleton.mp trampoline, eight, Pmm.bitmapRowBits]
        omega
  · have start : (0 : Nat) = 0 * map.mmapDescSize := (Nat.zero_mul _).symm
    rw [start] at walked
    obtain ⟨i, k, -, inside, usable, frees, rfl⟩ := Pmm.mem_freeUsableRows walked
    have freed : map.Frees k := ⟨i, by rwa [Nat.zero_add] at inside, usable, frees⟩
    have below : k < memPages :=
      ((frees_iff wellFormed.aligned wellFormed.ends small k).mp
        freed).2.lt_memPages wellFormed
    rw [rows, Pmm.bitmapRowBits]
    omega

/-- `init_pmm` leaves clear exactly the bits of the usable frames, within the
rows of the bitmap, if and only if the narrowing of the type field lets no
other descriptor with a frame through. -/
theorem initExact_iff
    (map : MemoryMap) (memPages : Nat) (bitmap : Word) (prior : Nat → Word)
    (small : memPages < 2 ^ 52)
    (wellFormed : map.WellFormed memPages) :
    map.InitExact ((MemInfo.stored bitmap memPages).pmm prior) ↔
      map.NarrowsSafely := by
  have rows := MemInfo.stored_bitmapEntries bitmap small
  have clear : ∀ k, k / 64 < (memPages + 63) / 64 →
      (¬ (((MemInfo.stored bitmap memPages).pmm prior).initPmm map).Used k ↔
        k ≠ 0 ∧ map.Clears k) := by
    intro k inside
    rw [Pmm.used_initPmm map (by rw [← rows] at inside; exact inside), not_not]
    exact frees_iff wellFormed.aligned wellFormed.ends small k
  constructor
  · intro initialised i inside usable other k covers
    by_contra apart
    rw [not_or] at apart
    have clears : map.Clears k := ⟨i, inside, usable, covers⟩
    have below := clears.lt_memPages wellFormed
    have row : k / 64 < (memPages + 63) / 64 := by omega
    have meant := (initialised.clear_iff k (by rw [← rows] at row; exact row)
      apart.2).mp ((clear k row).mpr ⟨apart.1, clears⟩)
    obtain ⟨-, j, jInside, conventional, jCovers⟩ := meant
    -- Descriptors do not overlap, so the one that is meant is the same.
    rw [wellFormed.disjoint j i k jInside inside jCovers covers] at conventional
    exact other conventional
  · intro safely
    refine ⟨?_, fun row => wellFormed.rows_lt small rows rfl⟩
    intro k inside notTrampoline
    rw [clear k (by rw [← rows]; exact inside)]
    apply and_congr_right
    intro notNull
    constructor
    · rintro ⟨i, below, usable, covers⟩
      by_contra other
      have narrow : ¬ (map.desc i).Conventional := fun conventional =>
        other ⟨i, below, conventional, covers⟩
      cases safely i below usable narrow k covers with
      | inl null => exact notNull null
      | inr trampoline => exact notTrampoline trampoline
    · rintro ⟨i, below, conventional, covers⟩
      exact ⟨i, below, conventional.usable, covers⟩

/-- Sixteen pages, one descriptor of them, of the given type. -/
def single (type : BitVec 32) : MemoryMap where
  descAt := fun _ => { type := type, physicalStart := 0#64, count := 16#64 }
  mmapSize := 48
  mmapDescSize := 48

theorem single_wellFormed (type : BitVec 32) : (single type).WellFormed 16 where
  aligned := fun _ _ => rfl
  ends := fun _ _ => by
    change (0#64).toNat + (16#64).toNat * 4096 ≤ 16 * 4096
    decide
  disjoint := by
    intro i j k iInside jInside _ _
    have one : (single type).entries = 1 := by simp [entries, single]
    omega

theorem initExact_iff_sample :
    (single 7#32).InitExact
        ((MemInfo.stored 0x2000#64 16).pmm fun _ => 0#64) ↔
      (single 7#32).NarrowsSafely :=
  initExact_iff (single 7#32) 16 0x2000#64 (fun _ => 0#64) (by decide)
    (single_wellFormed 7#32)

/-- A descriptor of type `0x80000007`, which is left to operating systems, is
freed as if it were conventional memory. -/
theorem oem_frame_freed :
    ¬ ∀ (map : MemoryMap) (memPages : Nat) (bitmap : Word)
      (prior : Nat → Word), memPages < 2 ^ 52 → map.WellFormed memPages →
        map.InitExact ((MemInfo.stored bitmap memPages).pmm prior) := by
  intro always
  have initialised := always (single 0x80000007#32) 16 0x2000#64 (fun _ => 0#64)
    (by decide) (single_wellFormed _)
  have freed : ¬ (((MemInfo.stored 0x2000#64 16).pmm fun _ => 0#64).initPmm
      (single 0x80000007#32)).Used 1 := by decide +kernel
  obtain ⟨-, i, -, conventional, -⟩ :=
    (initialised.clear_iff 1 (by decide) (by decide)).mp freed
  have other :
      ¬ MmapDesc.Conventional ⟨0x80000007#32, 0#64, 16#64⟩ := by decide
  exact other conventional

end MemoryMap
end PivotOs
