import PivotOs.Pmm.Frames
import PivotOs.Loader.Defs

/-!
# The bitmap after `init_pmm`

`init_pmm` fills the bitmap and then walks over the memory map, clearing the
areas of usable descriptors.  What the walk clears is stated without any
assumption on the map: a descriptor clears the frames of the addresses that
its loop goes through.  For page-aligned descriptors inside the memory these
are the frames that it covers.  The type of a descriptor is narrowed to a byte
before it is tested, so the descriptors that are cleared may be others than
those of type 3, 4 or 7.
-/

namespace PivotOs

namespace MmapDesc

/-- Frame `k` lies in the area of a descriptor. -/
def Covers (desc : MmapDesc) (k : Nat) : Prop :=
  frameOf desc.physicalStart ≤ k ∧
    k < frameOf desc.physicalStart + desc.count.toNat

/-- Clearing the area of a descriptor clears the bit of frame `k`. -/
def Frees (desc : MmapDesc) (k : Nat) : Prop :=
  ∃ i, i < desc.count.toNat ∧
    Pmm.pageAddress desc.physicalStart i ≠ 0#64 ∧
      k = frameOf (Pmm.pageAddress desc.physicalStart i)

/-- The types that `init_pmm` means to free. -/
def Conventional (desc : MmapDesc) : Prop :=
  desc.type = 3#32 ∨ desc.type = 4#32 ∨ desc.type = 7#32

instance (desc : MmapDesc) : Decidable desc.Conventional :=
  inferInstanceAs (Decidable (_ ∨ _))

/-- Narrowing keeps the types that are meant. -/
theorem Conventional.usable
    {desc : MmapDesc}
    (conventional : desc.Conventional) :
    desc.Usable := by
  rcases conventional with type | type | type <;>
    simp [Usable, type]

end MmapDesc

namespace MemoryMap

/-- Number of descriptors in the map. -/
def entries (map : MemoryMap) : Nat := map.mmapSize / map.mmapDescSize

/-- The `i`-th descriptor of the map. -/
def desc (map : MemoryMap) (i : Nat) : MmapDesc :=
  map.descAt (i * map.mmapDescSize)

/-- Frame `k` lies in an area that `init_pmm` clears. -/
def Clears (map : MemoryMap) (k : Nat) : Prop :=
  ∃ i, i < map.entries ∧ (map.desc i).Usable ∧ (map.desc i).Covers k

/-- `init_pmm` clears the bit of frame `k`. -/
def Frees (map : MemoryMap) (k : Nat) : Prop :=
  ∃ i, i < map.entries ∧ (map.desc i).Usable ∧ (map.desc i).Frees k

/-- Frame `k` lies in a descriptor of type 3, 4 or 7. -/
def Conventional (map : MemoryMap) (k : Nat) : Prop :=
  ∃ i, i < map.entries ∧ (map.desc i).Conventional ∧ (map.desc i).Covers k

/-- Page-aligned descriptors that do not overlap and end inside `mem_pages`
pages. -/
structure WellFormed (map : MemoryMap) (memPages : Nat) : Prop where
  /-- Descriptors start at pages. -/
  aligned : ∀ i, i < map.entries →
    (map.desc i).physicalStart.toNat % 4096 = 0
  /-- Descriptors end inside the memory. -/
  ends : ∀ i, i < map.entries →
    (map.desc i).physicalStart.toNat + (map.desc i).count.toNat * 4096 ≤
      memPages * 4096
  /-- No frame lies in two descriptors. -/
  disjoint : ∀ i j k, i < map.entries → j < map.entries →
    (map.desc i).Covers k → (map.desc j).Covers k → i = j

end MemoryMap

namespace Pmm

variable {m : Pmm}

/-! ## Areas -/

theorem frameOf_pageAddress
    {start : Word} {i : Nat}
    (aligned : start.toNat % 4096 = 0)
    (fits : start.toNat + i * 4096 < 2 ^ 64) :
    (pageAddress start i).toNat = start.toNat + i * 4096 ∧
      frameOf (pageAddress start i) = frameOf start + i := by
  have value : (pageAddress start i).toNat = start.toNat + i * 4096 := by
    rw [pageAddress, BitVec.toNat_add, BitVec.toNat_ofNat, pageSize]
    omega
  refine ⟨value, ?_⟩
  rw [frameOf, value, frameOf, pageSize]
  omega

/-- `pmm_clear_area` clears the frames of the addresses it goes through, the
null address apart. -/
theorem used_pmmClearArea (start : Word) (count k : Nat) :
    (m.pmmClearArea start count).Used k ↔
      m.Used k ∧ ¬ ∃ i, i < count ∧ pageAddress start i ≠ 0#64 ∧
        k = frameOf (pageAddress start i) := by
  induction count with
  | zero => simp [pmmClearArea]
  | succ count inductionHypothesis =>
      rw [pmmClearArea, used_pmmClearBit, inductionHypothesis]
      constructor
      · rintro ⟨⟨used, before⟩, last⟩
        refine ⟨used, ?_⟩
        rintro ⟨i, below, notNull, here⟩
        by_cases equal : i = count
        · subst equal
          exact last ⟨notNull, here⟩
        · exact before ⟨i, by omega, notNull, here⟩
      · rintro ⟨used, outside⟩
        refine ⟨⟨used, ?_⟩, ?_⟩
        · rintro ⟨i, below, found⟩
          exact outside ⟨i, by omega, found⟩
        · rintro found
          exact outside ⟨count, by omega, found⟩

@[simp] theorem pmmClearArea_bitmapEntries (start : Word) (count : Nat) :
    (m.pmmClearArea start count).bitmapEntries = m.bitmapEntries := by
  induction count with
  | zero => rfl
  | succ count inductionHypothesis =>
      rw [pmmClearArea, pmmClearBit_bitmapEntries, inductionHypothesis]

@[simp] theorem pmmClearArea_memPages (start : Word) (count : Nat) :
    (m.pmmClearArea start count).memPages = m.memPages := by
  induction count with
  | zero => rfl
  | succ count inductionHypothesis =>
      rw [pmmClearArea, pmmClearBit_memPages, inductionHypothesis]

end Pmm

/-- A page-aligned descriptor that ends below the top of the address space
frees what it covers, frame 0 apart. -/
theorem MmapDesc.frees_iff
    {desc : MmapDesc}
    (aligned : desc.physicalStart.toNat % 4096 = 0)
    (fits : desc.physicalStart.toNat + desc.count.toNat * 4096 < 2 ^ 64)
    (k : Nat) :
    desc.Frees k ↔ k ≠ 0 ∧ desc.Covers k := by
  have page : ∀ i, i < desc.count.toNat →
      (Pmm.pageAddress desc.physicalStart i ≠ 0#64 ↔
        frameOf desc.physicalStart + i ≠ 0) ∧
      frameOf (Pmm.pageAddress desc.physicalStart i) =
        frameOf desc.physicalStart + i := by
    intro i below
    have before : desc.physicalStart.toNat + i * 4096 < 2 ^ 64 :=
      lt_of_le_of_lt
        (Nat.add_le_add_left (Nat.mul_le_mul_right _ below.le) _) fits
    obtain ⟨value, frame⟩ := Pmm.frameOf_pageAddress aligned before
    refine ⟨?_, frame⟩
    rw [Ne, BitVec.toNat_eq, value, frameOf, pageSize, BitVec.toNat_ofNat]
    omega
  constructor
  · rintro ⟨i, below, notNull, rfl⟩
    rw [(page i below).2]
    exact ⟨(page i below).1.mp notNull, Nat.le_add_right _ _, by omega⟩
  · rintro ⟨notNull, above, below⟩
    refine ⟨k - frameOf desc.physicalStart, by omega, ?_, ?_⟩
    · rw [(page _ (by omega)).1]
      omega
    · rw [(page _ (by omega)).2]
      omega

/-! ## The walk over the map -/

namespace Pmm

variable {m : Pmm}

theorem freeUsable_frame (map : MemoryMap) (entries offset : Nat) :
    (freeUsable map entries offset m).bitmapEntries = m.bitmapEntries ∧
      (freeUsable map entries offset m).memPages = m.memPages := by
  induction entries generalizing offset m with
  | zero => exact ⟨rfl, rfl⟩
  | succ entries inductionHypothesis =>
      rw [freeUsable]
      split
      · simpa using inductionHypothesis (offset + map.mmapDescSize)
          (m := m.pmmClearArea _ _)
      · exact inductionHypothesis (offset + map.mmapDescSize)

@[simp] theorem initPmm_bitmapEntries (map : MemoryMap) :
    (m.initPmm map).bitmapEntries = m.bitmapEntries := by
  rw [initPmm, (freeUsable_frame _ _ _).1, pmmSetBit_bitmapEntries]
  rfl

@[simp] theorem initPmm_memPages (map : MemoryMap) :
    (m.initPmm map).memPages = m.memPages := by
  rw [initPmm, (freeUsable_frame _ _ _).2, pmmSetBit_memPages]
  rfl

/-- The walk over the map clears exactly what its usable descriptors free. -/
theorem used_freeUsable (map : MemoryMap) (entries first k : Nat) :
    (freeUsable map entries (first * map.mmapDescSize) m).Used k ↔
      m.Used k ∧ ¬ ∃ i, first ≤ i ∧ i < first + entries ∧
        (map.desc i).Usable ∧ (map.desc i).Frees k := by
  induction entries generalizing first m with
  | zero =>
      rw [freeUsable]
      constructor
      · intro used
        refine ⟨used, ?_⟩
        rintro ⟨i, after, before, -⟩
        omega
      · exact And.left
  | succ entries inductionHypothesis =>
      rw [freeUsable, ← Nat.succ_mul, inductionHypothesis (first + 1)]
      -- The first descriptor clears its own area, or is skipped.
      have head :
          (if (map.desc first).Usable then
              m.pmmClearArea (map.desc first).physicalStart
                (map.desc first).count.toNat
            else m).Used k ↔
          m.Used k ∧ ¬ ((map.desc first).Usable ∧
            (map.desc first).Frees k) := by
        split
        · rename_i usable
          rw [used_pmmClearArea]
          simp only [usable, true_and]
          rfl
        · tauto
      have split : (∃ i, first ≤ i ∧ i < first + (entries + 1) ∧
            (map.desc i).Usable ∧ (map.desc i).Frees k) ↔
          ((map.desc first).Usable ∧ (map.desc first).Frees k) ∨
            ∃ i, first + 1 ≤ i ∧ i < first + 1 + entries ∧
              (map.desc i).Usable ∧ (map.desc i).Frees k := by
        constructor
        · rintro ⟨i, after, before, found⟩
          by_cases here : i = first
          · exact Or.inl (here ▸ found)
          · exact Or.inr ⟨i, by omega, by omega, found⟩
        · rintro (found | ⟨i, after, before, found⟩)
          · exact ⟨first, by omega, by omega, found⟩
          · exact ⟨i, by omega, by omega, found⟩
      rw [split]
      change (if (map.desc first).Usable then
          m.pmmClearArea (map.desc first).physicalStart
            (map.desc first).count.toNat
        else m).Used k ∧ _ ↔ _
      rw [head, and_assoc, ← not_or]

/-- `init_pmm` leaves clear exactly the bits that the map frees. -/
theorem used_initPmm
    (map : MemoryMap)
    {k : Nat}
    (inside : k / 64 < m.bitmapEntries) :
    (m.initPmm map).Used k ↔ ¬ map.Frees k := by
  have full : (m.fillRows.pmmSetBit 0x8000#64).Used k := by
    rw [used_pmmSetBit]
    refine Or.inl ?_
    have row : k / bitmapRowBits < m.bitmapEntries := inside
    rw [Used, fillRows]
    simp only [if_pos row]
    exact getLsbD_bitmapRowFull (column_lt k)
  have walk := used_freeUsable (m := m.fillRows.pmmSetBit 0x8000#64) map
    map.entries 0 k
  simp only [Nat.zero_mul, Nat.zero_le, Nat.zero_add, true_and, full] at walk
  exact walk

end Pmm

/-- In a well-formed map exactly the covered frames are freed, frame 0
apart. -/
theorem MemoryMap.frees_iff
    {map : MemoryMap} {memPages : Nat}
    (aligned : ∀ i, i < map.entries →
      (map.desc i).physicalStart.toNat % 4096 = 0)
    (ends : ∀ i, i < map.entries →
      (map.desc i).physicalStart.toNat + (map.desc i).count.toNat * 4096 ≤
        memPages * 4096)
    (small : memPages < 2 ^ 52)
    (k : Nat) :
    map.Frees k ↔ k ≠ 0 ∧ map.Clears k := by
  have each : ∀ i, i < map.entries →
      ((map.desc i).Frees k ↔ k ≠ 0 ∧ (map.desc i).Covers k) := by
    intro i inside
    have last := ends i inside
    exact MmapDesc.frees_iff (aligned i inside) (by omega) k
  constructor
  · rintro ⟨i, inside, usable, frees⟩
    obtain ⟨notNull, covers⟩ := (each i inside).mp frees
    exact ⟨notNull, i, inside, usable, covers⟩
  · rintro ⟨notNull, i, inside, usable, covers⟩
    exact ⟨i, inside, usable, (each i inside).mpr ⟨notNull, covers⟩⟩

end PivotOs
