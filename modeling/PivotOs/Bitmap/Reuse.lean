import PivotOs.Bitmap.Exclusive

/-!
# What `bm_free` gives back

`bm_free` is written to clear the ids of an allocation, to return its length,
and to let the next search start at it.  Writing the id zero clears nothing, and
the walk that recovers the length compares ids at different columns: the freed
blocks stay used for good and the length returned is always one block.
-/

namespace PivotOs
namespace Bitmap
namespace Pool

variable {r : Region} {s : Pool} {a : Allocation} {block : Nat}

/-- The block a pointer of the region names. -/
def firstBlock (r : Region) (a : Allocation) : Nat := (a.ptr - r.base) / r.bsize

/-- A block of the allocation `a`. -/
def InAllocation (r : Region) (a : Allocation) (block : Nat) : Prop :=
  firstBlock r a ≤ block ∧ block < firstBlock r a + a.blocks r.bsize

/-- Freeing `a` gives exactly its blocks back: they, and no others, become
free, `used` drops by their number, the other ids stay, and a request for at
most as many blocks is then granted. -/
structure GivesBack (r : Region) (s : Pool) (a : Allocation) : Prop where
  /-- The used blocks are the old ones without those of `a`. -/
  used_iff : ∀ block, block < r.tblocks →
    (¬ Free (bmFree s.mem a.ptr s.record).2.1 r.base block ↔
      ¬ Free s.mem r.base block ∧ ¬ InAllocation r a block)
  /-- The count of used blocks drops. -/
  used_eq : (bmFree s.mem a.ptr s.record).2.2.used + a.blocks r.bsize =
    s.record.used
  /-- Other ids are kept. -/
  others : ∀ block, block < r.tblocks → ¬ InAllocation r a block →
    getBm (bmFree s.mem a.ptr s.record).2.1 r.base block =
      getBm s.mem r.base block
  /-- The space can be used again. -/
  reusable : ∀ size, divCeil size r.bsize ≤ a.blocks r.bsize →
    (bmAlloc (bmFree s.mem a.ptr s.record).2.1 size
      (bmFree s.mem a.ptr s.record).2.2).1 ≠ 0

theorem Placed.firstBlock_eq
    {mem : Memory}
    (placed : Placed r mem a block) :
    firstBlock r a = block := by
  rw [firstBlock, placed.ptr_eq, Nat.add_sub_cancel_left,
    Nat.mul_div_cancel _ r.bsize_pos]

/-- The first block of a freed allocation keeps its id. -/
theorem Inv.free_keeps_first
    (inv : Inv r s)
    (placed : Placed r s.mem a block)
    (some_blocks : 0 < a.blocks r.bsize) :
    ¬ GivesBack r s a := by
  intro gives
  have used : ¬ Free s.mem r.base block := placed.used 0 some_blocks
  have after : ¬ Free (bmFree s.mem a.ptr s.record).2.1 r.base block := by
    rwa [inv.bmFree_live placed]
  refine ((gives.used_iff block placed.inside).mp after).2 ?_
  rw [InAllocation, placed.firstBlock_eq]
  omega

/-- No `bm_free` of a live allocation with blocks gives them back. -/
theorem bmFree_never_gives_back
    (r : Region) (prior : Memory) (s : Pool) (a : Allocation)
    (reachable : Reachable r prior s)
    (member : a ∈ s.live)
    (some_blocks : 0 < a.blocks r.bsize) :
    ¬ GivesBack r s a := by
  have inv := reachable.inv
  obtain ⟨block, placed⟩ := inv.placed a member
  exact inv.free_keeps_first placed some_blocks

/-- One block allocated in zeroed memory. -/
theorem one_block_reachable :
    ∃ s, Reachable sampleRegion (fun _ => 0#8) s ∧ s.live = [⟨4104, 8⟩] := by
  have ran : (Runs.run exec (init sampleRegion fun _ => 0#8)
      [.alloc 8]).map Pool.live = some [⟨4104, 8⟩] := by decide
  obtain ⟨s, eq, live⟩ := Option.map_eq_some_iff.mp ran
  exact ⟨s, ⟨[.alloc 8], eq⟩, live⟩

theorem bmFree_never_gives_back_sample :
    ∃ s, Reachable sampleRegion (fun _ => 0#8) s ∧ ⟨4104, 8⟩ ∈ s.live ∧
      ¬ GivesBack sampleRegion s ⟨4104, 8⟩ := by
  obtain ⟨s, reachable, live⟩ := one_block_reachable
  have member : (⟨4104, 8⟩ : Allocation) ∈ s.live := by simp [live]
  exact ⟨s, reachable, member,
    bmFree_never_gives_back _ _ s _ reachable member (by decide)⟩

/-- After one block has been allocated and freed in zeroed memory, its id is
still set. -/
theorem freed_block_not_given_back :
    ¬ ∀ (r : Region) (s : Pool) (a : Allocation),
      Reachable r (fun _ => 0#8) s → a ∈ s.live → 0 < a.blocks r.bsize →
        GivesBack r s a := by
  intro claim
  obtain ⟨s, reachable, live⟩ := one_block_reachable
  have member : (⟨4104, 8⟩ : Allocation) ∈ s.live := by simp [live]
  have inv := reachable.inv
  obtain ⟨block, placed⟩ := inv.placed _ member
  exact inv.free_keeps_first placed (by decide)
    (claim sampleRegion s _ reachable member (by decide))

/-! ## The length returned -/

/-- `bm_free` returns the size of one block. -/
theorem Inv.bmFree_result
    (inv : Inv r s)
    (placed : Placed r s.mem a block)
    (some_blocks : 0 < a.blocks r.bsize) :
    (bmFree s.mem a.ptr s.record).1 = r.bsize := by
  have used : ¬ Free s.mem s.record.bm block := by
    rw [inv.bm_eq]
    exact placed.used 0 some_blocks
  have inside : block < s.record.tblocks := inv.tblocks_eq ▸ placed.inside
  have small := r.mul_bsize_le (Nat.one_le_of_lt placed.inside)
  have fits := r.fits
  rw [inv.bmFree_live placed, runLength_of_used inside used, inv.bsize_eq,
    wrap_of_lt (by omega), Nat.one_mul]

/-- `bm_free` returns the length of an allocation exactly when it is one block
long. -/
theorem bmFree_length_iff
    (r : Region) (prior : Memory) (s : Pool) (a : Allocation)
    (reachable : Reachable r prior s)
    (member : a ∈ s.live)
    (some_blocks : 0 < a.blocks r.bsize) :
    (bmFree s.mem a.ptr s.record).1 = a.blocks r.bsize * r.bsize ↔
      a.blocks r.bsize = 1 := by
  have inv := reachable.inv
  obtain ⟨block, placed⟩ := inv.placed a member
  rw [inv.bmFree_result placed some_blocks]
  constructor
  · intro equal
    exact Nat.eq_of_mul_eq_mul_right r.bsize_pos
      (equal.symm.trans (Nat.one_mul _).symm)
  · intro single
    rw [single, Nat.one_mul]

/-- One allocation of three blocks. -/
theorem three_blocks_reachable :
    ∃ s, Reachable sampleRegion (fun _ => 0#8) s ∧ s.live = [⟨4104, 20⟩] := by
  have ran : (Runs.run exec (init sampleRegion fun _ => 0#8)
      [.alloc 20]).map Pool.live = some [⟨4104, 20⟩] := by decide
  obtain ⟨s, eq, live⟩ := Option.map_eq_some_iff.mp ran
  exact ⟨s, ⟨[.alloc 20], eq⟩, live⟩

theorem bmFree_length_iff_sample :
    ∃ s, Reachable sampleRegion (fun _ => 0#8) s ∧ ⟨4104, 20⟩ ∈ s.live ∧
      ((bmFree s.mem 4104 s.record).1 = 3 * 8 ↔ 3 = 1) := by
  obtain ⟨s, reachable, live⟩ := three_blocks_reachable
  have member : (⟨4104, 20⟩ : Allocation) ∈ s.live := by simp [live]
  exact ⟨s, reachable, member,
    bmFree_length_iff _ _ s _ reachable member (by decide)⟩

/-- Freeing an allocation of three blocks returns the size of one. -/
theorem freed_length_short :
    ¬ ∀ (r : Region) (s : Pool) (a : Allocation),
      Reachable r (fun _ => 0#8) s → a ∈ s.live → 0 < a.blocks r.bsize →
        (bmFree s.mem a.ptr s.record).1 = a.blocks r.bsize * r.bsize := by
  intro claim
  obtain ⟨s, reachable, live⟩ := three_blocks_reachable
  have member : (⟨4104, 20⟩ : Allocation) ∈ s.live := by simp [live]
  have inv := reachable.inv
  obtain ⟨block, placed⟩ := inv.placed _ member
  have returned := claim sampleRegion s _ reachable member (by decide)
  rw [inv.bmFree_result placed (by decide)] at returned
  exact absurd returned (by decide)

end Pool
end Bitmap
end PivotOs
