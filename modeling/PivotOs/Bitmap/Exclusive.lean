import PivotOs.Bitmap.Release
import Mathlib.Order.CompletePartialOrder
import Mathlib.Order.Disjoint

/-!
# Live allocations never overlap

The invariant behind exclusive ownership: the blocks of the bitmap and of every
live allocation have a non-zero id, and so has every block below `ffa`.  No
operation clears an id, and a new allocation only takes blocks whose id is
zero.  The one delicate step is the copy in `bm_realloc`, whose length is the
walk over the old allocation; the walk is one block long except for an
allocation of no blocks, which starts at the first free block of its time.
-/

namespace PivotOs
namespace Bitmap
namespace Pool

variable {r : Region} {s : Pool}

/-! ## Memories that agree on the used blocks -/

/-- Used blocks stay used. -/
def KeepsUsed (r : Region) (before after : Memory) : Prop :=
  ∀ block, block < r.tblocks →
    ¬ Free before r.base block → ¬ Free after r.base block

theorem KeepsUsed.refl (mem : Memory) : KeepsUsed r mem mem :=
  fun _ _ used => used

theorem KeepsUsed.trans
    {first second third : Memory}
    (early : KeepsUsed r first second)
    (late : KeepsUsed r second third) :
    KeepsUsed r first third :=
  fun block inside used => late block inside (early block inside used)

/-- The ids depend only on the bytes of the bitmap. -/
theorem getBm_eq_of_agree
    {before after : Memory}
    (agree : ∀ address, r.base ≤ address →
      address < r.base + r.reserved * r.bsize → after address = before address)
    {block : Nat}
    (inside : block < r.tblocks) :
    getBm after r.base block = getBm before r.base block := by
  have bytes := r.bitmapBytes_le
  have row : r.base + block / 4 < r.base + r.reserved * r.bsize := by
    simp only [Region.bitmapBytes] at bytes
    omega
  simp only [getBm, blocksPerInt_eq, wrap_of_lt (r.row_fits inside.le),
    agree _ (Nat.le_add_right _ _) row]

theorem KeepsUsed.of_agree
    {before after : Memory}
    (agree : ∀ address, r.base ≤ address →
      address < r.base + r.reserved * r.bsize →
        after address = before address) :
    KeepsUsed r before after := by
  intro block inside used
  rwa [Free, getBm_eq_of_agree agree inside]

/-- Giving out ids takes none away. -/
theorem KeepsUsed.setRun
    (mem : Memory) (id : BitVec 8)
    {start count : Nat}
    (inside : start + count ≤ r.tblocks) :
    KeepsUsed r mem (setRun mem r.base start id count) := by
  intro block blockInside used free
  apply used
  by_cases written : start ≤ block ∧ block < start + count
  · obtain ⟨offset, rfl⟩ := Nat.exists_eq_add_of_le written.1
    rw [Free, getBm_setRun_inside mem id (r.row_fits inside) (by omega),
      BitVec.or_eq_zero_iff] at free
    exact free.1
  · rwa [Free, getBm_setRun_outside mem id (r.row_fits inside)
      (r.row_fits blockInside.le) (by omega)] at free

/-! ## The invariant -/

/-- The allocation `a` starts at `block` and its blocks are used. -/
structure Placed
    (r : Region) (mem : Memory) (a : Allocation) (block : Nat) : Prop where
  /-- The pointer is the address of the block. -/
  ptr_eq : a.ptr = r.base + block * r.bsize
  /-- The block is not one of the bitmap's. -/
  reserved_le : r.reserved ≤ block
  /-- The block belongs to the region. -/
  inside : block < r.tblocks
  /-- So do all blocks of the allocation. -/
  end_le : block + a.blocks r.bsize ≤ r.tblocks
  /-- They are used. -/
  used : ∀ offset, offset < a.blocks r.bsize →
    ¬ Free mem r.base (block + offset)
  /-- An allocation of no blocks has only used blocks before it. -/
  first : a.blocks r.bsize = 0 →
    ∀ other, other < block → ¬ Free mem r.base other

/-- What holds of every reachable pool. -/
structure Inv (r : Region) (s : Pool) : Prop where
  /-- The region's size is recorded. -/
  size_eq : s.record.size = r.size
  /-- The block size is recorded. -/
  bsize_eq : s.record.bsize = r.bsize
  /-- The region's address is recorded. -/
  bm_eq : s.record.bm = r.base
  /-- The bitmap's own blocks are used. -/
  reserved_used : ∀ block, block < r.reserved → ¬ Free s.mem r.base block
  /-- The search may start at `ffa`. -/
  below_ffa : ∀ block, block < s.record.ffa → block < r.tblocks →
    ¬ Free s.mem r.base block
  /-- Live allocations own used blocks. -/
  placed : ∀ a ∈ s.live, ∃ block, Placed r s.mem a block
  /-- Live allocations do not overlap. -/
  separate : s.live.Pairwise fun a other =>
    Disjoint (a.range r.bsize) (other.range r.bsize)

namespace Placed

variable {mem : Memory} {a : Allocation} {block : Nat}

theorem keep
    {after : Memory}
    (placed : Placed r mem a block)
    (keeps : KeepsUsed r mem after) :
    Placed r after a block where
  ptr_eq := placed.ptr_eq
  reserved_le := placed.reserved_le
  inside := placed.inside
  end_le := placed.end_le
  used := by
    intro offset below
    have last := placed.end_le
    exact keeps _ (by omega) (placed.used offset below)
  first := by
    intro empty other before
    have inside := placed.inside
    exact keeps _ (by omega) (placed.first empty other before)

theorem ptr_lt (placed : Placed r mem a block) :
    r.base + block * r.bsize < r.base + r.size := by
  have next := r.mul_bsize_le (Nat.succ_le_of_lt placed.inside)
  have positive := r.bsize_pos
  rw [Nat.succ_mul] at next
  omega

theorem blockOf_ptr
    {b : Bitmap}
    (placed : Placed r mem a block)
    (bm_eq : b.bm = r.base)
    (bsize_eq : b.bsize = r.bsize) :
    b.blockOf a.ptr = block := by
  have inside := placed.ptr_lt
  have fits := r.fits
  rw [blockOf, bm_eq, bsize_eq, placed.ptr_eq,
    wrapSub_of_le (by omega) (by omega), Nat.add_sub_cancel_left,
    Nat.mul_div_cancel _ r.bsize_pos]

/-- The pointer passes the address test of `bm_free`. -/
theorem not_outside
    {b : Bitmap}
    (placed : Placed r mem a block)
    (bm_eq : b.bm = r.base)
    (size_eq : b.size = r.size)
    (bsize_eq : b.bsize = r.bsize) :
    ¬ b.outside a.ptr := by
  have inside := placed.ptr_lt
  have fits := r.fits
  have start : r.reserved * r.bsize ≤ block * r.bsize :=
    Nat.mul_le_mul_right _ placed.reserved_le
  rw [outside, bm_eq, size_eq, bsize_eq, placed.ptr_eq,
    show bmBlocks r.size r.bsize = r.reserved from rfl,
    wrap_of_lt (by omega), wrap_of_lt (by omega)]
  omega

/-- A byte of an allocation lies in one of its blocks. -/
theorem block_of_mem_range
    (placed : Placed r mem a block)
    {address : Nat}
    (member : address ∈ a.range r.bsize) :
    ∃ offset, offset < a.blocks r.bsize ∧
      (address - r.base) / r.bsize = block + offset := by
  obtain ⟨lower, upper⟩ := Set.mem_Ico.mp member
  rw [placed.ptr_eq] at lower upper
  have positive := r.bsize_pos
  have atLeast : block ≤ (address - r.base) / r.bsize := by
    rw [Nat.le_div_iff_mul_le positive]
    omega
  have below : (address - r.base) / r.bsize < block + a.blocks r.bsize := by
    rw [Nat.div_lt_iff_lt_mul positive, Nat.add_mul]
    omega
  exact ⟨(address - r.base) / r.bsize - block, by omega, by omega⟩

/-- The blocks of an allocation end inside the region. -/
theorem end_le_region (placed : Placed r mem a block) :
    a.ptr + a.blocks r.bsize * r.bsize ≤ r.base + r.size := by
  have last := r.mul_bsize_le placed.end_le
  rw [Nat.add_mul] at last
  rw [placed.ptr_eq]
  omega

theorem reserved_le_ptr (placed : Placed r mem a block) :
    r.base + r.reserved * r.bsize ≤ a.ptr := by
  rw [placed.ptr_eq]
  exact Nat.add_le_add_left
    (Nat.mul_le_mul_right _ placed.reserved_le) _

end Placed

/-! ## Preservation -/

/-- Operations that keep used blocks and only drop allocations. -/
theorem Inv.of_keepsUsed
    {next : Pool}
    (inv : Inv r s)
    (size_eq : next.record.size = s.record.size)
    (bsize_eq : next.record.bsize = s.record.bsize)
    (bm_eq : next.record.bm = s.record.bm)
    (keeps : KeepsUsed r s.mem next.mem)
    (ffa_le : next.record.ffa ≤ s.record.ffa)
    (live : next.live.Sublist s.live) :
    Inv r next where
  size_eq := size_eq.trans inv.size_eq
  bsize_eq := bsize_eq.trans inv.bsize_eq
  bm_eq := bm_eq.trans inv.bm_eq
  reserved_used := by
    intro block below
    exact keeps block (lt_of_lt_of_le below r.reserved_le)
      (inv.reserved_used block below)
  below_ffa := by
    intro block below inside
    exact keeps block inside
      (inv.below_ffa block (lt_of_lt_of_le below ffa_le) inside)
  placed := by
    intro a member
    obtain ⟨block, placed⟩ := inv.placed a (live.subset member)
    exact ⟨block, placed.keep keeps⟩
  separate := inv.separate.sublist live

/-- What a successful `bm_alloc` leaves behind. -/
structure Fresh
    (r : Region) (s : Pool) (size block : Nat)
    (mem : Memory) (record : Bitmap) : Prop where
  /-- The first fit was taken. -/
  first : FirstFree s.mem s.record (divCeil size r.bsize) s.record.ffa block
  /-- Used blocks stay used. -/
  keeps : KeepsUsed r s.mem mem
  /-- The blocks of the run are now used. -/
  used : ∀ offset, offset < divCeil size r.bsize →
    ¬ Free mem r.base (block + offset)
  /-- The blocks of the run belong to the region. -/
  end_le : block + divCeil size r.bsize ≤ r.tblocks
  size_eq : record.size = s.record.size
  bsize_eq : record.bsize = s.record.bsize
  bm_eq : record.bm = s.record.bm
  /-- The next search starts where this one did, or behind the new run. -/
  ffa_eq : record.ffa =
    if block = s.record.ffa then block + divCeil size r.bsize
    else s.record.ffa

theorem Inv.tblocks_eq (inv : Inv r s) : s.record.tblocks = r.tblocks := by
  rw [Bitmap.tblocks, inv.size_eq, inv.bsize_eq, Region.tblocks]

/-- `bm_alloc` fails without effect or takes the first fit. -/
theorem Inv.bmAlloc_cases (inv : Inv r s) (size : Nat) :
    bmAlloc s.mem size s.record = (0, s.mem, s.record) ∨
      ∃ block mem record,
        bmAlloc s.mem size s.record =
          (r.base + block * r.bsize, mem, record) ∧
        Fresh r s size block mem record := by
  obtain null | ⟨block, first, eq⟩ :=
    Bitmap.bmAlloc_cases s.mem size s.record
  · exact Or.inl null
  · rw [inv.bsize_eq, inv.bm_eq] at eq
    rw [inv.bsize_eq] at first
    have inside : block < r.tblocks := inv.tblocks_eq ▸ first.fits.1.1
    have endLe : block + divCeil size r.bsize ≤ r.tblocks :=
      first.end_le.trans inv.tblocks_eq.le
    have product := r.mul_bsize_le inside.le
    have fits := r.fits
    rw [wrap_of_lt (by omega)] at eq
    refine Or.inr ⟨block, _, _, eq, first,
      KeepsUsed.setRun _ _ endLe, ?_, endLe, rfl, inv.bsize_eq.symm ▸ rfl,
      inv.bm_eq.symm ▸ rfl, rfl⟩
    intro offset below free
    rw [Free, getBm_setRun_inside _ _ (r.row_fits endLe) below,
      BitVec.or_eq_zero_iff] at free
    exact bmUniqueId_visible _ _ _ free.2

/-- `bm_alloc` that returns null has no effect. -/
theorem Inv.bmAlloc_eq_null
    {size : Nat}
    (inv : Inv r s)
    (null : (bmAlloc s.mem size s.record).1 = 0) :
    bmAlloc s.mem size s.record = (0, s.mem, s.record) := by
  obtain unchanged | ⟨block, mem, record, eq, -⟩ := inv.bmAlloc_cases size
  · exact unchanged
  · rw [eq] at null
    exact absurd null (r.ptr_ne_zero block)

namespace Fresh

variable {size block : Nat} {mem : Memory} {record : Bitmap}

theorem free
    (fresh : Fresh r s size block mem record)
    (inv : Inv r s) :
    Free s.mem r.base block := by
  have free := fresh.first.fits.1.2
  rwa [inv.bm_eq] at free

theorem run_free
    (fresh : Fresh r s size block mem record)
    (inv : Inv r s)
    {offset : Nat}
    (below : offset < divCeil size r.bsize) :
    Free s.mem r.base (block + offset) := by
  have free := (fresh.first.fits.2 offset below).2
  rwa [inv.bm_eq] at free

theorem inside
    (fresh : Fresh r s size block mem record)
    (inv : Inv r s) :
    block < r.tblocks :=
  inv.tblocks_eq ▸ fresh.first.fits.1.1

theorem reserved_le
    (fresh : Fresh r s size block mem record)
    (inv : Inv r s) :
    r.reserved ≤ block := by
  by_contra below
  exact inv.reserved_used block (by omega) (fresh.free inv)

/-- Every free block before the new run is too short a fit. -/
theorem not_fits_before
    (fresh : Fresh r s size block mem record)
    (inv : Inv r s)
    {other : Nat}
    (before : other < block)
    (fits : ∀ offset, offset < divCeil size r.bsize →
      other + offset < r.tblocks ∧ Free s.mem r.base (other + offset)) :
    ¬ Free s.mem r.base other := by
  intro free
  have inside := fresh.inside inv
  have after : s.record.ffa ≤ other := by
    by_contra below
    exact inv.below_ffa other (by omega) (by omega) free
  apply fresh.first.least other after before
  rw [inv.bm_eq, inv.tblocks_eq]
  exact ⟨⟨by omega, free⟩, fits⟩

theorem placed
    (fresh : Fresh r s size block mem record)
    (inv : Inv r s) :
    Placed r mem ⟨r.base + block * r.bsize, size⟩ block where
  ptr_eq := rfl
  reserved_le := fresh.reserved_le inv
  inside := fresh.inside inv
  end_le := fresh.end_le
  used := fresh.used
  first := by
    intro empty other before
    have inside := fresh.inside inv
    apply fresh.keeps other (by omega)
    apply fresh.not_fits_before inv before
    intro offset below
    have none : divCeil size r.bsize = 0 := empty
    omega

/-- The new run overlaps no live allocation. -/
theorem disjoint
    (fresh : Fresh r s size block mem record)
    (inv : Inv r s)
    {a : Allocation}
    (member : a ∈ s.live) :
    Disjoint
      (Allocation.range ⟨r.base + block * r.bsize, size⟩ r.bsize)
      (a.range r.bsize) := by
  rw [Set.disjoint_left]
  intro address inNew inOld
  obtain ⟨oldBlock, oldPlaced⟩ := inv.placed a member
  obtain ⟨offset, below, eq⟩ := (fresh.placed inv).block_of_mem_range inNew
  obtain ⟨oldOffset, oldBelow, oldEq⟩ := oldPlaced.block_of_mem_range inOld
  apply oldPlaced.used oldOffset oldBelow
  rw [← oldEq, eq]
  exact fresh.run_free inv below

theorem below_ffa
    (fresh : Fresh r s size block mem record)
    (inv : Inv r s)
    {other : Nat}
    (below : other < record.ffa)
    (otherInside : other < r.tblocks) :
    ¬ Free mem r.base other := by
  rw [fresh.ffa_eq] at below
  split at below
  · rename_i atStart
    by_cases early : other < s.record.ffa
    · exact fresh.keeps other otherInside
        (inv.below_ffa other early otherInside)
    · obtain ⟨offset, rfl⟩ :=
        Nat.exists_eq_add_of_le (show block ≤ other by omega)
      exact fresh.used offset (by omega)
  · exact fresh.keeps other otherInside
      (inv.below_ffa other below otherInside)

end Fresh

/-- Adding a fresh allocation, and dropping others, keeps the invariant. -/
theorem Inv.of_fresh
    {size block : Nat} {mem after : Memory} {record final : Bitmap}
    {live : List Allocation}
    (inv : Inv r s)
    (fresh : Fresh r s size block mem record)
    (keeps : KeepsUsed r mem after)
    (size_eq : final.size = record.size)
    (bsize_eq : final.bsize = record.bsize)
    (bm_eq : final.bm = record.bm)
    (ffa_le : final.ffa ≤ record.ffa)
    (sublist : live.Sublist s.live) :
    Inv r
      { mem := after
        record := final
        live := ⟨r.base + block * r.bsize, size⟩ :: live } where
  size_eq := (size_eq.trans fresh.size_eq).trans inv.size_eq
  bsize_eq := (bsize_eq.trans fresh.bsize_eq).trans inv.bsize_eq
  bm_eq := (bm_eq.trans fresh.bm_eq).trans inv.bm_eq
  reserved_used := by
    intro other below
    have inside := lt_of_lt_of_le below r.reserved_le
    exact keeps other inside
      (fresh.keeps other inside (inv.reserved_used other below))
  below_ffa := by
    intro other below inside
    exact keeps other inside
      (fresh.below_ffa inv (lt_of_lt_of_le below ffa_le) inside)
  placed := by
    intro a member
    rcases List.mem_cons.mp member with rfl | old
    · exact ⟨block, (fresh.placed inv).keep keeps⟩
    · obtain ⟨oldBlock, placed⟩ := inv.placed a (sublist.subset old)
      exact ⟨oldBlock, placed.keep (fresh.keeps.trans keeps)⟩
  separate := by
    refine List.Pairwise.cons ?_ (inv.separate.sublist sublist)
    intro a member
    exact fresh.disjoint inv (sublist.subset member)

/-- `bm_alloc` keeps the invariant. -/
theorem Inv.alloc (inv : Inv r s) (size : Nat) {next : Pool}
    (stepped : s.exec (.alloc size) = some next) : Inv r next := by
  obtain rfl := Option.some.inj stepped
  obtain null | ⟨block, mem, record, eq, fresh⟩ := inv.bmAlloc_cases size
  · simp only [null, if_true]
    exact inv
  · simp only [eq, if_neg (r.ptr_ne_zero block)]
    exact inv.of_fresh fresh (KeepsUsed.refl mem) rfl rfl rfl le_rfl
      (List.Sublist.refl _)

/-- `bm_free` of a live pointer changes no byte. -/
theorem Inv.bmFree_live
    (inv : Inv r s)
    {a : Allocation} {block : Nat}
    (placed : Placed r s.mem a block) :
    bmFree s.mem a.ptr s.record =
      (wrap (runLength s.mem s.record (getBm s.mem s.record.bm block)
          (s.record.tblocks - block) block * s.record.bsize),
        s.mem,
        { s.record with
          ffa := if block < s.record.ffa then block else s.record.ffa }) := by
  rw [bmFree_of_inside s.mem
    (placed.not_outside inv.bm_eq inv.size_eq inv.bsize_eq),
    placed.blockOf_ptr inv.bm_eq inv.bsize_eq]

/-- `bm_free` keeps the invariant. -/
theorem Inv.free (inv : Inv r s) (a : Allocation) {next : Pool}
    (stepped : s.exec (.free a) = some next) : Inv r next := by
  obtain ⟨member, rfl⟩ := exec_free stepped
  obtain ⟨block, placed⟩ := inv.placed a member
  rw [inv.bmFree_live placed]
  refine inv.of_keepsUsed rfl rfl rfl (KeepsUsed.refl _) ?_
    (List.erase_sublist)
  simp only
  split <;> omega

/-- A client's store hits no byte of the bitmap. -/
theorem Inv.store_keepsUsed
    {address : Nat}
    (inv : Inv r s)
    (owned : s.Owned address)
    (byte : BitVec 8) :
    KeepsUsed r s.mem (s.mem.write address byte) := by
  obtain ⟨a, member, lower, -⟩ := owned
  obtain ⟨block, placed⟩ := inv.placed a member
  apply KeepsUsed.of_agree
  intro other _ below
  have start := placed.reserved_le_ptr
  exact Memory.write_other _ _ (by omega)

/-- A client's store keeps the invariant. -/
theorem Inv.store (inv : Inv r s) (address : Nat) (byte : BitVec 8)
    {next : Pool}
    (stepped : s.exec (.store address byte) = some next) : Inv r next := by
  obtain ⟨owned, rfl⟩ := exec_store stepped
  exact inv.of_keepsUsed rfl rfl rfl (inv.store_keepsUsed owned byte) le_rfl
    (List.Sublist.refl _)

/-- A copy into blocks behind the bitmap keeps the ids. -/
theorem KeepsUsed.memcpy
    {mem result : Memory} {src block count : Nat}
    (start : r.reserved ≤ block)
    (inside : block + count ≤ r.tblocks)
    (copied : mem.memcpy (r.base + block * r.bsize) src (count * r.bsize) =
      some result) :
    KeepsUsed r mem result := by
  have last := r.mul_bsize_le inside
  have fits := r.fits
  have first : r.reserved * r.bsize ≤ block * r.bsize :=
    Nat.mul_le_mul_right _ start
  rw [Nat.add_mul] at last
  apply KeepsUsed.of_agree
  intro address _ below
  exact memcpy_outside (by omega) copied (Or.inl (by omega))

theorem Fresh.tblocks_eq
    {size block : Nat} {mem : Memory} {record : Bitmap}
    (fresh : Fresh r s size block mem record)
    (inv : Inv r s) :
    record.tblocks = r.tblocks := by
  rw [Bitmap.tblocks, fresh.size_eq, fresh.bsize_eq, ← Bitmap.tblocks,
    inv.tblocks_eq]

/-- Only an allocation of no blocks has a free block under its pointer. -/
theorem Placed.blocks_eq_zero
    {mem : Memory} {a : Allocation} {oldBlock : Nat}
    (placed : Placed r mem a oldBlock)
    (oldFree : Free mem r.base oldBlock) :
    a.blocks r.bsize = 0 := by
  by_contra some
  exact placed.used 0 (Nat.pos_of_ne_zero some) oldFree

/-- That block is the first free one of its region. -/
theorem Placed.le_of_free
    {mem : Memory} {a : Allocation} {oldBlock other : Nat}
    (placed : Placed r mem a oldBlock)
    (oldFree : Free mem r.base oldBlock)
    (free : Free mem r.base other) :
    oldBlock ≤ other := by
  by_contra before
  exact placed.first (placed.blocks_eq_zero oldFree) other
    (Nat.lt_of_not_le before) free

/-- Free blocks at the old pointer that the new run was not put into are too
few for it. -/
theorem Fresh.walk_lt
    {size block oldBlock : Nat} {mem : Memory} {record : Bitmap}
    {a : Allocation}
    (fresh : Fresh r s size block mem record)
    (inv : Inv r s)
    (placed : Placed r s.mem a oldBlock)
    (free : Free mem r.base oldBlock)
    (moved : block ≠ oldBlock) :
    runLength mem record (getBm mem r.base oldBlock) (r.tblocks - oldBlock)
      oldBlock < divCeil size r.bsize := by
  have bm_eq : record.bm = r.base := fresh.bm_eq.trans inv.bm_eq
  have wasFree : Free s.mem r.base oldBlock := by
    by_contra before
    exact fresh.keeps oldBlock placed.inside before free
  have notBefore : oldBlock ≤ block :=
    placed.le_of_free wasFree (fresh.free inv)
  by_contra long
  refine fresh.not_fits_before inv (by omega) ?_ wasFree
  intro offset below
  have walked := runLength_spec mem record (getBm mem r.base oldBlock)
    (r.tblocks - oldBlock) oldBlock offset (by omega)
  rw [bm_eq, fresh.tblocks_eq inv, free] at walked
  refine ⟨walked.2, ?_⟩
  by_contra before
  exact fresh.keeps _ walked.2 before walked.1

/-- A used block at the old pointer is all the walk goes over. -/
theorem Fresh.walk_eq_one
    {size block oldBlock : Nat} {mem : Memory} {record : Bitmap}
    (fresh : Fresh r s size block mem record)
    (inv : Inv r s)
    (inside : oldBlock < r.tblocks)
    (used : ¬ Free mem r.base oldBlock) :
    runLength mem record (getBm mem r.base oldBlock) (r.tblocks - oldBlock)
      oldBlock = 1 := by
  have bm_eq : record.bm = r.base := fresh.bm_eq.trans inv.bm_eq
  have tblocks_eq := fresh.tblocks_eq inv
  have single : runLength mem record (getBm mem record.bm oldBlock)
      (record.tblocks - oldBlock) oldBlock = 1 :=
    runLength_of_used (tblocks_eq ▸ inside) (bm_eq ▸ used)
  rwa [bm_eq, tblocks_eq] at single

/-- Where the walk of `bm_realloc` over the old allocation can end: it fits
behind the new pointer, or the new pointer is the old one. -/
theorem Fresh.walk_fits
    {size block oldBlock : Nat} {mem : Memory} {record : Bitmap}
    {a : Allocation}
    (fresh : Fresh r s size block mem record)
    (inv : Inv r s)
    (placed : Placed r s.mem a oldBlock) :
    block + runLength mem record (getBm mem r.base oldBlock)
        (r.tblocks - oldBlock) oldBlock ≤ r.tblocks ∨
      block = oldBlock := by
  by_cases free : Free mem r.base oldBlock
  · by_cases same : block = oldBlock
    · exact Or.inr same
    · have short := fresh.walk_lt inv placed free same
      have endLe := fresh.end_le
      exact Or.inl (by omega)
  · have single := fresh.walk_eq_one inv placed.inside free
    have inside := fresh.inside inv
    omega

/-- `bm_realloc` of a live pointer faults when there is no room; otherwise it
takes the first fit, copies there what the walk over the old blocks found, and
lets the search start at the old block again. -/
theorem Inv.bmRealloc_cases
    {a : Allocation} {oldBlock : Nat}
    (inv : Inv r s)
    (placed : Placed r s.mem a oldBlock)
    (size : Nat) :
    (bmAlloc s.mem size s.record = (0, s.mem, s.record) ∧
      bmRealloc s.mem a.ptr size s.record = none) ∨
    ∃ block mem record,
      bmAlloc s.mem size s.record = (r.base + block * r.bsize, mem, record) ∧
      Fresh r s size block mem record ∧
      bmRealloc s.mem a.ptr size s.record =
        (mem.memcpy (r.base + block * r.bsize) a.ptr
          (runLength mem record (getBm mem r.base oldBlock)
            (r.tblocks - oldBlock) oldBlock * r.bsize)).map fun after =>
              (r.base + block * r.bsize, after,
                { record with
                  ffa := if oldBlock < record.ffa then oldBlock
                    else record.ffa }) := by
  have fits := r.fits
  rw [bmRealloc,
    if_neg (placed.not_outside inv.bm_eq inv.size_eq inv.bsize_eq)]
  obtain null | ⟨block, mem, record, eq, fresh⟩ := inv.bmAlloc_cases size
  · -- The copy goes through the null pointer.
    refine Or.inl ⟨null, ?_⟩
    simp only [null, placed.blockOf_ptr inv.bm_eq inv.bsize_eq]
    have inside : oldBlock < s.record.tblocks :=
      inv.tblocks_eq ▸ placed.inside
    have positive := runLength_pos s.mem s.record inside
    have short := runLength_le s.mem s.record
      (getBm s.mem s.record.bm oldBlock) (s.record.tblocks - oldBlock)
      oldBlock inside.le
    rw [inv.tblocks_eq] at short positive ⊢
    have copySize := r.mul_bsize_le (le_trans (Nat.le_add_left _ _) short)
    rw [inv.bsize_eq, wrap_of_lt (by omega),
      memcpy_null _ _ (Nat.mul_pos positive r.bsize_pos), Option.map_none]
  · refine Or.inr ⟨block, mem, record, eq, fresh, ?_⟩
    have bm_eq : record.bm = r.base := fresh.bm_eq.trans inv.bm_eq
    have bsize_eq : record.bsize = r.bsize :=
      fresh.bsize_eq.trans inv.bsize_eq
    have size_eq : record.size = r.size := fresh.size_eq.trans inv.size_eq
    have tblocks_eq := fresh.tblocks_eq inv
    have short := runLength_le mem record (getBm mem r.base oldBlock)
      (r.tblocks - oldBlock) oldBlock (tblocks_eq ▸ placed.inside.le)
    rw [tblocks_eq] at short
    have copySize := r.mul_bsize_le (le_trans (Nat.le_add_left _ _) short)
    simp only [eq, placed.blockOf_ptr bm_eq bsize_eq, bm_eq, bsize_eq,
      tblocks_eq]
    rw [wrap_of_lt (by omega)]
    refine congrArg (fun f => Option.map f _) (funext fun after => ?_)
    rw [bmFree_of_inside after (placed.not_outside bm_eq size_eq bsize_eq),
      placed.blockOf_ptr bm_eq bsize_eq]
    simp only [bm_eq, bsize_eq]

/-- What `bm_realloc` of a live pointer does when it returns: it takes the
first fit, copies inside the region, and lets the search start at the old
block again. -/
theorem Inv.bmRealloc_spec
    {a : Allocation} {oldBlock size : Nat} {result : Nat × Memory × Bitmap}
    (inv : Inv r s)
    (placed : Placed r s.mem a oldBlock)
    (realloc_eq : bmRealloc s.mem a.ptr size s.record = some result) :
    ∃ block mem record after,
      bmAlloc s.mem size s.record = (r.base + block * r.bsize, mem, record) ∧
      Fresh r s size block mem record ∧ KeepsUsed r mem after ∧
      (∀ address, address < r.base ∨ r.base + r.size ≤ address →
        after address = mem address) ∧
      result = (r.base + block * r.bsize, after,
        { record with
          ffa := if oldBlock < record.ffa then oldBlock else record.ffa }) := by
  have fits := r.fits
  obtain ⟨-, faults⟩ | ⟨block, mem, record, eq, fresh, moves⟩ :=
    inv.bmRealloc_cases placed size
  · rw [faults] at realloc_eq
    simp at realloc_eq
  · rw [moves] at realloc_eq
    obtain ⟨after, copied, rfl⟩ := Option.map_eq_some_iff.mp realloc_eq
    refine ⟨block, mem, record, after, eq, fresh, ?_, ?_, rfl⟩
    · rcases fresh.walk_fits inv placed with inside | same
      · exact KeepsUsed.memcpy (fresh.reserved_le inv) inside copied
      · rw [placed.ptr_eq, same] at copied
        rw [memcpy_self copied]
        exact KeepsUsed.refl mem
    · intro address outside
      rcases fresh.walk_fits inv placed with inside | same
      · have last := r.mul_bsize_le inside
        rw [Nat.add_mul] at last
        exact memcpy_outside (by omega) copied (by omega)
      · rw [placed.ptr_eq, same] at copied
        rw [memcpy_self copied]

/-- A call of `bm_realloc` that returns. -/
theorem Inv.exec_realloc_cases
    {a : Allocation} {size : Nat} {next : Pool}
    (inv : Inv r s)
    (stepped : s.exec (.realloc a size) = some next) :
    ∃ oldBlock block mem record after,
      bmAlloc s.mem size s.record = (r.base + block * r.bsize, mem, record) ∧
      Fresh r s size block mem record ∧ KeepsUsed r mem after ∧
      (∀ address, address < r.base ∨ r.base + r.size ≤ address →
        after address = mem address) ∧
      next =
        { mem := after
          record := { record with
            ffa := if oldBlock < record.ffa then oldBlock else record.ffa }
          live := ⟨r.base + block * r.bsize, size⟩ :: s.live.erase a } := by
  obtain ⟨member, new, realloc_eq, rfl⟩ := exec_realloc stepped
  obtain ⟨oldBlock, placed⟩ := inv.placed a member
  obtain ⟨block, mem, record, after, eq, fresh, keeps, outside, rfl⟩ :=
    inv.bmRealloc_spec placed realloc_eq
  refine ⟨oldBlock, block, mem, record, after, eq, fresh, keeps, outside, ?_⟩
  simp only [if_neg (r.ptr_ne_zero block)]

/-- `bm_realloc` keeps the invariant. -/
theorem Inv.realloc (inv : Inv r s) (a : Allocation) (size : Nat) {next : Pool}
    (stepped : s.exec (.realloc a size) = some next) : Inv r next := by
  obtain ⟨oldBlock, block, mem, record, after, -, fresh, keeps, -, rfl⟩ :=
    inv.exec_realloc_cases stepped
  refine inv.of_fresh fresh keeps rfl rfl rfl ?_ List.erase_sublist
  simp only
  split <;> omega

/-! ## Runs -/

theorem exec_inv (state : Pool) (call : Call) (next : Pool)
    (inv : Inv r state)
    (stepped : state.exec call = some next) :
    Inv r next := by
  cases call with
  | alloc size => exact inv.alloc size stepped
  | free a => exact inv.free a stepped
  | realloc a size => exact inv.realloc a size stepped
  | store address byte => exact inv.store address byte stepped

theorem init_mem (r : Region) (prior : Memory) :
    (init r prior).mem = setRun prior r.base 0 1#8 r.reserved := by
  change setRun (setRun prior r.base 0 0#8 r.tblocks) r.base 0 1#8 r.reserved = _
  rw [setRun_zero]

theorem init_getBm_reserved
    {prior : Memory} {block : Nat}
    (below : block < r.reserved) :
    getBm (init r prior).mem r.base block =
      getBm prior r.base block ||| (1#8 &&& idMask) <<< column block := by
  have fits : r.base + (0 + r.reserved) / 4 < 2 ^ 64 := by
    simpa using r.row_fits r.reserved_le
  have inside := getBm_setRun_inside prior 1#8 fits below
  rwa [Nat.zero_add, ← init_mem] at inside

theorem init_inv (r : Region) (prior : Memory) : Inv r (init r prior) := by
  have used : ∀ block, block < r.reserved →
      ¬ Free (init r prior).mem r.base block := by
    intro block below free
    rw [Free, init_getBm_reserved below, BitVec.or_eq_zero_iff] at free
    rcases column_cases block with ⟨-, col⟩ | ⟨-, col⟩ | ⟨-, col⟩ | ⟨-, col⟩ <;>
      · rw [col] at free
        exact absurd free.2 (by decide)
  exact
    { size_eq := rfl
      bsize_eq := rfl
      bm_eq := rfl
      reserved_used := used
      below_ffa := fun block below _ => used block below
      placed := by simp [init]
      separate := List.Pairwise.nil }

theorem Reachable.inv
    {prior : Memory}
    (reachable : Reachable r prior s) :
    Inv r s := by
  obtain ⟨calls, ran⟩ := reachable
  exact Runs.run_invariant (Inv r) exec_inv (init_inv r prior) ran

/-- The live allocations of a reachable pool are pairwise disjoint, start at
block boundaries, and lie in the region behind the bitmap's own blocks, so
that none of them overlaps a byte of the bitmap. -/
theorem live_ranges_separate
    (r : Region) (prior : Memory) (s : Pool)
    (reachable : Reachable r prior s) :
    (s.live.Pairwise fun a other =>
      Disjoint (a.range r.bsize) (other.range r.bsize)) ∧
    ∀ a ∈ s.live,
      (∃ block, a.ptr = r.base + block * r.bsize) ∧
      r.base + r.reserved * r.bsize ≤ a.ptr ∧
      a.ptr + a.blocks r.bsize * r.bsize ≤ r.base + r.size ∧
      Disjoint (a.range r.bsize)
        (Set.Ico r.base (r.base + r.bitmapBytes)) := by
  have inv := reachable.inv
  refine ⟨inv.separate, ?_⟩
  intro a member
  obtain ⟨block, placed⟩ := inv.placed a member
  have start := placed.reserved_le_ptr
  refine ⟨⟨block, placed.ptr_eq⟩, start, placed.end_le_region, ?_⟩
  rw [Set.disjoint_left]
  intro address inRange inBitmap
  have bytes := r.bitmapBytes_le
  have lower := (Set.mem_Ico.mp inRange).1
  have upper := (Set.mem_Ico.mp inBitmap).2
  omega

/-- A region of sixteen blocks of eight bytes, just above page 0. -/
def sampleRegion : Region where
  base := 4096
  size := 128
  bsize := 8
  bsize_pos := by decide
  above_null := by decide
  fits := by decide

/-- A run with a reallocation, a free and an empty request. -/
def sampleCalls : List Call :=
  [.alloc 20, .alloc 5, .realloc ⟨4104, 20⟩ 9, .free ⟨4128, 5⟩, .alloc 0]

theorem live_ranges_separate_sample :
    ∃ s, Reachable sampleRegion (fun _ => 0#8) s ∧
      s.live = [⟨4152, 0⟩, ⟨4136, 9⟩] ∧
      s.live.Pairwise fun a other =>
        Disjoint (a.range sampleRegion.bsize)
          (other.range sampleRegion.bsize) := by
  have ran : (Runs.run exec (init sampleRegion fun _ => 0#8)
      sampleCalls).map Pool.live = some [⟨4152, 0⟩, ⟨4136, 9⟩] := by
    decide +kernel
  obtain ⟨s, eq, live⟩ := Option.map_eq_some_iff.mp ran
  have reachable : Reachable sampleRegion (fun _ => 0#8) s := ⟨sampleCalls, eq⟩
  exact ⟨s, reachable, live, (live_ranges_separate _ _ s reachable).1⟩

end Pool
end Bitmap
end PivotOs
