import PivotOs.Loader.LoadKernel
import PivotOs.Loader.MapAddr

/-!
# The mapping loop of `LoadSegment`

The pages of a segment are mapped one by one, wherever the segment starts in
its first page.  Pages of the higher half are never those of a table, which the
loader maps at its own address in the lower half; so what one segment maps, no
later call of `MapAddr` for another page takes away.
-/

namespace PivotOs

open Paging

/-- Pages of the higher half, the first of them at `start`. -/
structure HighRange (start : Word) (count : Nat) : Prop where
  /-- They start in the higher half. -/
  high : higherHalfOffset.toNat ≤ start.toNat
  /-- They end with the address space. -/
  ends : start.toNat / 4096 + count ≤ 2 ^ 52

namespace HighRange

variable {start : Word} {count i : Nat}

theorem toNat_pageAddress
    (range : HighRange start count)
    (below : i < count) :
    (Pmm.pageAddress start i).toNat = start.toNat + 4096 * i := by
  have ends := range.ends
  rw [Pmm.pageAddress, BitVec.toNat_add, BitVec.toNat_ofNat, pageSize]
  omega

/-- The pages are in order and in the higher half. -/
theorem pageOf_pageAddress
    (range : HighRange start count)
    (below : i < count) :
    pageOf (Pmm.pageAddress start i) + (2 ^ 52 - 2 ^ 36) =
      start.toNat / 4096 + i := by
  have ends := range.ends
  have high := range.high
  have offset : higherHalfOffset.toNat = 2 ^ 64 - 2 ^ 47 := by decide
  rw [pageOf, range.toNat_pageAddress below, pageSize]
  omega

theorem le_pageOf
    (range : HighRange start count)
    (below : i < count) :
    2 ^ 35 ≤ pageOf (Pmm.pageAddress start i) := by
  have page := range.pageOf_pageAddress below
  have high := range.high
  have offset : higherHalfOffset.toNat = 2 ^ 64 - 2 ^ 47 := by decide
  omega

theorem ne_zero
    (range : HighRange start count)
    (below : i < count) :
    Pmm.pageAddress start i ≠ 0#64 := by
  intro null
  have page := range.le_pageOf below
  rw [null] at page
  exact absurd page (by decide)

theorem mono
    {fewer : Nat}
    (range : HighRange start count)
    (le : fewer ≤ count) :
    HighRange start fewer :=
  ⟨range.high, (Nat.add_le_add_left le _).trans range.ends⟩

end HighRange

/-- The pages that a loop over a range maps. -/
def rangePages (start : Word) (count : Nat) : Set Nat :=
  { page | ∃ i, i < count ∧ page = pageOf (Pmm.pageAddress start i) }

theorem rangePages_succ (start : Word) (count : Nat) :
    rangePages start (count + 1) =
      insert (pageOf (Pmm.pageAddress start count)) (rangePages start count) := by
  ext page
  simp only [rangePages, Set.mem_insert_iff, Set.mem_ofPred_eq]
  rw [Nat.exists_lt_succ_right, or_comm]

/-- Later pages of a range are other pages. -/
theorem HighRange.not_mem_rangePages
    {start : Word} {count : Nat}
    (range : HighRange start (count + 1)) :
    pageOf (Pmm.pageAddress start count) ∉ rangePages start count := by
  rintro ⟨i, below, same⟩
  have last := range.pageOf_pageAddress (Nat.lt_succ_self count)
  have earlier := range.pageOf_pageAddress (below.trans (Nat.lt_succ_self _))
  omega

namespace Loader

variable {pml4 : Word} {s next : Loader}

/-- `MapRange` maps its pages and tables, and nothing else. -/
theorem mapRange_grew
    (phys virt : Word) (count : Nat)
    (sound : s.Sound pml4) :
    ∃ tables, Grew pml4 tables (rangePages virt count) s
      (mapRange phys virt pml4 count s).2 := by
  induction count with
  | zero => exact ⟨[], Grew.refl sound⟩
  | succ count inductionHypothesis =>
      obtain ⟨tables, grew⟩ := inductionHypothesis
      have grewMore := grew.mono (Set.subset_insert
        (pageOf (Pmm.pageAddress virt count)) (rangePages virt count))
      rw [rangePages_succ, mapRange]
      rcases before : mapRange phys virt pml4 count s with ⟨status, middle⟩
      rw [before] at grew grewMore
      cases status with
      | error => exact ⟨tables, grewMore⟩
      | success =>
          obtain ⟨later, last⟩ := (mapAddr_maps grew.sound
            (Pmm.pageAddress phys count) (Pmm.pageAddress virt count)).grew
          exact ⟨later ++ tables, grewMore.trans sound (last.mono (by simp))⟩

/-- A call of `MapRange` that succeeds maps every page. -/
theorem mapRange_leafAt
    {phys virt : Word} {count : Nat}
    (sound : s.Sound pml4)
    (range : HighRange virt count)
    (success : (mapRange phys virt pml4 count s).1 = .success)
    {i : Nat}
    (below : i < count) :
    (mapRange phys virt pml4 count s).2.leafAt pml4 (Pmm.pageAddress virt i) =
      Pmm.pageAddress phys i ||| kernelPtEntry := by
  induction count with
  | zero => omega
  | succ count inductionHypothesis =>
      have earlier := range.mono count.le_succ
      obtain ⟨_, grew⟩ := mapRange_grew phys virt count sound
      rw [mapRange] at success ⊢
      rcases before : mapRange phys virt pml4 count s with ⟨status, middle⟩
      rw [before] at success grew inductionHypothesis
      cases status with
      | error => contradiction
      | success =>
          obtain ⟨_, last, leaf⟩ := (mapAddr_maps grew.sound
            (Pmm.pageAddress phys count)
            (Pmm.pageAddress virt count)).of_success success
          rcases Nat.lt_succ_iff_lt_or_eq.mp below with sooner | rfl
          · simp only
            rw [last.leaf_high grew.sound ?_ (range.le_pageOf below)]
            · exact inductionHypothesis earlier rfl sooner
            · intro same
              exact range.not_mem_rangePages ⟨i, sooner, same.symm⟩
          · exact leaf

/-- The loop maps its pages and tables, and nothing else. -/
theorem mapSegment_grew
    (segmentData pVaddr : Word) (count : Nat)
    (sound : s.Sound pml4) :
    ∃ tables, Grew pml4 tables (rangePages pVaddr count) s
      (mapSegment segmentData pVaddr pml4 count s) := by
  induction count with
  | zero => exact ⟨[], Grew.refl sound⟩
  | succ count inductionHypothesis =>
      obtain ⟨tables, grew⟩ := inductionHypothesis
      obtain ⟨later, last⟩ := (mapAddr_maps grew.sound
        (alignAddr (Pmm.pageAddress segmentData count))
        (alignAddr (Pmm.pageAddress pVaddr count))).grew
      rw [pageOf_alignAddr] at last
      rw [rangePages_succ]
      refine ⟨later ++ tables, ?_⟩
      exact (grew.mono (Set.subset_insert _ _)).trans sound
        (last.mono (by simp))

theorem mapSegment_failures_le
    (segmentData pVaddr pml4 : Word) (count : Nat) (s : Loader) :
    s.failures ≤ (mapSegment segmentData pVaddr pml4 count s).failures := by
  induction count with
  | zero => exact le_rfl
  | succ count inductionHypothesis =>
      exact inductionHypothesis.trans (mapAddr_counts _ _ _).failures_le

/-- Without failures the last round maps its page. -/
theorem mapSegment_succ
    {segmentData pVaddr : Word} {count : Nat}
    (sound : s.Sound pml4)
    (enough : (mapSegment segmentData pVaddr pml4 (count + 1) s).failures =
      s.failures) :
    (mapSegment segmentData pVaddr pml4 count s).failures = s.failures ∧
      ∃ tables, Grew pml4 tables
          {pageOf (Pmm.pageAddress pVaddr count)}
          (mapSegment segmentData pVaddr pml4 count s)
          (mapSegment segmentData pVaddr pml4 (count + 1) s) ∧
        (mapSegment segmentData pVaddr pml4 (count + 1) s).leafAt pml4
            (Pmm.pageAddress pVaddr count) =
          alignAddr (Pmm.pageAddress segmentData count) ||| kernelPtEntry := by
  obtain ⟨_, grew⟩ := mapSegment_grew segmentData pVaddr count sound
  have before := mapSegment_failures_le segmentData pVaddr pml4 count s
  have counts := @mapAddr_counts pml4
    (mapSegment segmentData pVaddr pml4 count s)
    (alignAddr (Pmm.pageAddress segmentData count))
    (alignAddr (Pmm.pageAddress pVaddr count))
  have after := counts.failures_le
  rw [mapSegment] at enough ⊢
  have same : (mapSegment segmentData pVaddr pml4 count s).failures =
      s.failures := by omega
  refine ⟨same, ?_⟩
  have mapped := (mapAddr_maps grew.sound
    (alignAddr (Pmm.pageAddress segmentData count))
    (alignAddr (Pmm.pageAddress pVaddr count))).of_success
      (counts.success (enough.trans same.symm))
  rwa [pageOf_alignAddr,
    leafAt_eq_of_pageOf_eq (pageOf_alignAddr _)] at mapped

/-- Without failures a page that the loop maps is one of the segment's. -/
theorem mapSegment_leaf_covered
    {segmentData pVaddr address : Word} {count : Nat}
    (sound : s.Sound pml4)
    (enough : (mapSegment segmentData pVaddr pml4 count s).failures =
      s.failures)
    (high : 2 ^ 35 ≤ pageOf address)
    (covered : pageOf address ∈ rangePages pVaddr count) :
    ∃ i, i < count ∧
      (mapSegment segmentData pVaddr pml4 count s).leafAt pml4 address =
        alignAddr (Pmm.pageAddress segmentData i) ||| kernelPtEntry := by
  induction count with
  | zero =>
      obtain ⟨i, below, -⟩ := covered
      exact absurd below (Nat.not_lt_zero i)
  | succ count inductionHypothesis =>
      obtain ⟨_, grew⟩ := mapSegment_grew segmentData pVaddr count sound
      obtain ⟨fewer, _, last, leaf⟩ := mapSegment_succ sound enough
      by_cases here : pageOf address = pageOf (Pmm.pageAddress pVaddr count)
      · rw [leafAt_eq_of_pageOf_eq here]
        exact ⟨count, Nat.lt_succ_self count, leaf⟩
      · -- The last round leaves the page alone, so an earlier one mapped it.
        rw [rangePages_succ] at covered
        rw [last.leaf_high grew.sound here high]
        obtain ⟨i, below, mapped⟩ := inductionHypothesis fewer
          (Set.mem_of_mem_insert_of_ne covered here)
        exact ⟨i, below.trans (Nat.lt_succ_self count), mapped⟩

/-- Without failures every page of the segment is mapped. -/
theorem mapSegment_leafAt
    {segmentData pVaddr : Word} {count : Nat}
    (sound : s.Sound pml4)
    (range : HighRange pVaddr count)
    (enough : (mapSegment segmentData pVaddr pml4 count s).failures =
      s.failures)
    {i : Nat}
    (below : i < count) :
    (mapSegment segmentData pVaddr pml4 count s).leafAt pml4
        (Pmm.pageAddress pVaddr i) =
      alignAddr (Pmm.pageAddress segmentData i) ||| kernelPtEntry := by
  induction count with
  | zero => omega
  | succ count inductionHypothesis =>
      have earlier := range.mono count.le_succ
      obtain ⟨_, grew⟩ := mapSegment_grew segmentData pVaddr count sound
      obtain ⟨fewer, tables, last, leaf⟩ := mapSegment_succ sound enough
      rcases Nat.lt_succ_iff_lt_or_eq.mp below with before | rfl
      · rw [last.leaf_high grew.sound ?_ (range.le_pageOf below)]
        · exact inductionHypothesis earlier fewer before
        · intro same
          exact range.not_mem_rangePages ⟨i, before, same.symm⟩
      · exact leaf

end Loader
end PivotOs
