import PivotOs.Bitmap.Confined
import PivotOs.Bitmap.Reuse

/-!
# What `bm_realloc` copies

`bm_realloc` measures the old allocation with the walk of `bm_free`, which goes
over one block where the old block is used.  So it moves one block, whatever
the old and the new length: the bytes from the second block on are lost, and a
request for no blocks is given a block of bytes that are not its own.
-/

namespace PivotOs
namespace Bitmap
namespace Pool

variable {r : Region} {s : Pool} {a : Allocation}
variable {size block oldBlock : Nat} {mem after : Memory} {record : Bitmap}

/-- The result of `bm_realloc` has the bytes of the old allocation, as far as
both reach, and only the bitmap and the new blocks are written. -/
structure Moves
    (r : Region) (s : Pool) (a : Allocation) (size : Nat)
    (result : Nat × Memory × Bitmap) : Prop where
  /-- The bytes are moved. -/
  moved : ∀ offset, offset < min (a.blocks r.bsize * r.bsize) size →
    result.2.1 (result.1 + offset) = s.mem (a.ptr + offset)
  /-- The bytes outside the bitmap and the new blocks are kept. -/
  kept : ∀ address,
    (address < r.base ∨ r.base + r.bitmapBytes ≤ address) →
    (address < result.1 ∨
      result.1 + divCeil size r.bsize * r.bsize ≤ address) →
    result.2.1 address = s.mem address

/-- What moving one block gets right, with the new blocks at `block`: the bytes
behind the first block stand there already, and so does the first block when
no blocks are asked for. -/
structure OneBlockSuffices
    (r : Region) (s : Pool) (a : Allocation) (size block : Nat) : Prop where
  /-- The bytes from the second block on. -/
  later : ∀ offset, r.bsize ≤ offset →
    offset < min (a.blocks r.bsize * r.bsize) size →
    s.mem (r.base + block * r.bsize + offset) = s.mem (a.ptr + offset)
  /-- The first block, when it is not reserved. -/
  first : divCeil size r.bsize = 0 → ∀ offset, offset < r.bsize →
    s.mem (r.base + block * r.bsize + offset) = s.mem (a.ptr + offset)

/-- The first fit lies behind the bitmap. -/
theorem Fresh.beyond_bytes
    (fresh : Fresh r s size block mem record)
    (inv : Inv r s)
    (offset : Nat) :
    r.base + r.bitmapBytes ≤ r.base + block * r.bsize + offset := by
  have bytes := r.bitmapBytes_le
  have start : r.reserved * r.bsize ≤ block * r.bsize :=
    Nat.mul_le_mul_right _ (fresh.reserved_le inv)
  omega

/-- Over a free block under the old pointer, only new blocks are written. -/
theorem Inv.copy_of_free
    (inv : Inv r s)
    (placed : Placed r s.mem a oldBlock)
    (fresh : Fresh r s size block mem record)
    (oldFree : Free s.mem r.base oldBlock)
    (copied : mem.memcpy (r.base + block * r.bsize) a.ptr
      (runLength mem record (getBm mem r.base oldBlock) (r.tblocks - oldBlock)
        oldBlock * r.bsize) = some after)
    {address : Nat}
    (outside : address < r.base + block * r.bsize ∨
      r.base + block * r.bsize + divCeil size r.bsize * r.bsize ≤ address) :
    after address = mem address := by
  by_cases same : block = oldBlock
  · rw [placed.ptr_eq, same] at copied
    rw [memcpy_self copied]
  · have notBefore := placed.le_of_free oldFree (fresh.free inv)
    have some_blocks : 0 < divCeil size r.bsize := by
      by_contra none
      exact fresh.not_fits_before inv (by omega)
        (fun offset below => by omega) oldFree
    have short : runLength mem record (getBm mem r.base oldBlock)
        (r.tblocks - oldBlock) oldBlock ≤ divCeil size r.bsize := by
      by_cases free : Free mem r.base oldBlock
      · exact (fresh.walk_lt inv placed free same).le
      · rw [fresh.walk_eq_one inv placed.inside free]
        exact some_blocks
    have length := Nat.mul_le_mul_right r.bsize short
    have last := r.mul_bsize_le fresh.end_le
    have fits := r.fits
    rw [Nat.add_mul] at last
    exact memcpy_outside (by omega) copied (by omega)

/-- Over a used block under the old pointer, that block is moved. -/
theorem Inv.copy_of_used
    (inv : Inv r s)
    (placed : Placed r s.mem a oldBlock)
    (fresh : Fresh r s size block mem record)
    (oldUsed : ¬ Free s.mem r.base oldBlock)
    (copied : mem.memcpy (r.base + block * r.bsize) a.ptr
      (runLength mem record (getBm mem r.base oldBlock) (r.tblocks - oldBlock)
        oldBlock * r.bsize) = some after) :
    (∀ offset, offset < r.bsize →
      after (r.base + block * r.bsize + offset) = mem (a.ptr + offset)) ∧
    ∀ address, address < r.base + block * r.bsize ∨
        r.base + block * r.bsize + r.bsize ≤ address →
      after address = mem address := by
  have different : block ≠ oldBlock := by
    rintro rfl
    exact oldUsed (fresh.free inv)
  have last := r.mul_bsize_le (Nat.succ_le_of_lt (fresh.inside inv))
  have oldLast := r.mul_bsize_le (Nat.succ_le_of_lt placed.inside)
  have fits := r.fits
  rw [Nat.succ_mul] at last oldLast
  rw [fresh.walk_eq_one inv placed.inside
    (fresh.keeps oldBlock placed.inside oldUsed), Nat.one_mul,
    placed.ptr_eq] at copied
  have apart : r.base + block * r.bsize + r.bsize ≤
        r.base + oldBlock * r.bsize ∨
      r.base + oldBlock * r.bsize + r.bsize ≤ r.base + block * r.bsize := by
    rcases Nat.lt_or_gt_of_ne different with before | behind
    · have product := Nat.mul_le_mul_right r.bsize (Nat.succ_le_of_lt before)
      rw [Nat.succ_mul] at product
      omega
    · have product := Nat.mul_le_mul_right r.bsize (Nat.succ_le_of_lt behind)
      rw [Nat.succ_mul] at product
      omega
  constructor
  · intro offset below
    rw [placed.ptr_eq]
    exact memcpy_inside (by omega) (by omega) apart copied below
  · intro address outside
    exact memcpy_outside (by omega) copied outside

/-- The bytes of an allocation lie behind the bitmap. -/
theorem Placed.beyond_bytes
    (placed : Placed r mem a oldBlock)
    (offset : Nat) :
    r.base + r.bitmapBytes ≤ a.ptr + offset := by
  have start := placed.reserved_le_ptr
  have bytes := r.bitmapBytes_le
  omega

/-- `bm_alloc` writes the bytes of the bitmap only. -/
theorem Inv.fresh_bytes
    {address : Nat}
    (inv : Inv r s)
    (allocated : bmAlloc s.mem size s.record =
      (r.base + block * r.bsize, mem, record))
    (beyond : address < r.base ∨ r.base + r.bitmapBytes ≤ address) :
    mem address = s.mem address := by
  have same := inv.bmAlloc_bytes size beyond
  rwa [allocated] at same

/-- A used block under the old pointer: its bytes are the only ones moved. -/
theorem Inv.moves_iff_of_used
    (inv : Inv r s)
    (placed : Placed r s.mem a oldBlock)
    (allocated : bmAlloc s.mem size s.record =
      (r.base + block * r.bsize, mem, record))
    (fresh : Fresh r s size block mem record)
    (oldUsed : ¬ Free s.mem r.base oldBlock)
    (copied : mem.memcpy (r.base + block * r.bsize) a.ptr
      (runLength mem record (getBm mem r.base oldBlock) (r.tblocks - oldBlock)
        oldBlock * r.bsize) = some after)
    (final : Bitmap) :
    Moves r s a size (r.base + block * r.bsize, after, final) ↔
      OneBlockSuffices r s a size block := by
  obtain ⟨moved, kept⟩ := inv.copy_of_used placed fresh oldUsed copied
  have behind := fresh.beyond_bytes inv
  -- The bytes of `after` in terms of those before the call.
  have first : ∀ offset, offset < r.bsize →
      after (r.base + block * r.bsize + offset) = s.mem (a.ptr + offset) := by
    intro offset below
    rw [moved offset below,
      inv.fresh_bytes allocated (Or.inr (placed.beyond_bytes offset))]
  have later : ∀ offset, r.bsize ≤ offset →
      after (r.base + block * r.bsize + offset) =
        s.mem (r.base + block * r.bsize + offset) := by
    intro offset late
    rw [kept _ (Or.inr (by omega)),
      inv.fresh_bytes allocated (Or.inr (behind offset))]
  constructor
  · intro moves
    constructor
    · intro offset late below
      rw [← later offset late]
      exact moves.moved offset below
    · intro none offset below
      rw [← first offset below]
      refine (moves.kept _ (Or.inr (behind offset)) (Or.inr ?_)).symm
      simp only [none, Nat.zero_mul]
      omega
  · intro enough
    constructor
    · intro offset below
      by_cases early : offset < r.bsize
      · exact first offset early
      · exact (later offset (by omega)).trans
          (enough.later offset (by omega) below)
    · intro address beyond outside
      by_cases inside : r.base + block * r.bsize ≤ address ∧
          address < r.base + block * r.bsize + r.bsize
      · -- A byte of the moved block that no reserved block covers.
        obtain ⟨offset, rfl⟩ := Nat.exists_eq_add_of_le inside.1
        have none : divCeil size r.bsize = 0 := by
          by_contra some
          have product := Nat.le_mul_of_pos_left r.bsize
            (Nat.pos_of_ne_zero some)
          simp only at outside
          omega
        exact (first offset (by omega)).trans
          (enough.first none offset (by omega)).symm
      · exact (kept address (by omega)).trans (inv.fresh_bytes allocated beyond)

/-- `bm_realloc` keeps the bytes of a live allocation, and writes only the
bitmap and its new blocks, exactly when the block under the old pointer is free
or moving that block is enough. -/
theorem moves_iff
    (r : Region) (prior : Memory) (s : Pool) (a : Allocation) (size : Nat)
    (result : Nat × Memory × Bitmap)
    (reachable : Reachable r prior s)
    (member : a ∈ s.live)
    (returned : bmRealloc s.mem a.ptr size s.record = some result) :
    Moves r s a size result ↔
      Free s.mem r.base (firstBlock r a) ∨
        ∀ block,
          FirstFree s.mem s.record (divCeil size r.bsize) s.record.ffa block →
            OneBlockSuffices r s a size block := by
  have inv := reachable.inv
  obtain ⟨oldBlock, placed⟩ := inv.placed a member
  rw [placed.firstBlock_eq]
  obtain ⟨-, faults⟩ | ⟨block, mem, record, allocated, fresh, moves⟩ :=
    inv.bmRealloc_cases placed size
  · rw [faults] at returned
    simp at returned
  rw [moves] at returned
  obtain ⟨after, copied, rfl⟩ := Option.map_eq_some_iff.mp returned
  by_cases oldFree : Free s.mem r.base oldBlock
  · refine iff_of_true ?_ (Or.inl oldFree)
    constructor
    · intro offset below
      rw [placed.blocks_eq_zero oldFree] at below
      omega
    · intro address beyond outside
      exact (inv.copy_of_free placed fresh oldFree copied outside).trans
        (inv.fresh_bytes allocated beyond)
  · rw [inv.moves_iff_of_used placed allocated fresh oldFree copied]
    constructor
    · intro enough
      refine Or.inr fun place first => ?_
      rwa [first.unique fresh.first]
    · intro condition
      exact condition.resolve_left oldFree block fresh.first

/-- Three blocks with a byte in the second one. -/
theorem filled_blocks_reachable :
    ∃ s, Reachable sampleRegion (fun _ => 0#8) s ∧ s.live = [⟨4104, 20⟩] ∧
      s.mem 4112 = 7#8 ∧
      ∃ result, bmRealloc s.mem 4104 40 s.record = some result ∧
        result.1 = 4128 ∧ result.2.1 4136 = 0#8 := by
  have ran : (Runs.run exec (init sampleRegion fun _ => 0#8)
      [.alloc 20, .store 4112 7#8]).map (fun s => (s.live, s.mem 4112,
        (bmRealloc s.mem 4104 40 s.record).map fun result =>
          (result.1, result.2.1 4136))) =
      some ([⟨4104, 20⟩], 7#8, some (4128, 0#8)) := by decide +kernel
  obtain ⟨s, eq, observed⟩ := Option.map_eq_some_iff.mp ran
  obtain ⟨live, byte, moved⟩ := Prod.mk.inj observed |>.imp_right Prod.mk.inj
  obtain ⟨result, returned, values⟩ := Option.map_eq_some_iff.mp moved
  obtain ⟨new, lost⟩ := Prod.mk.inj values
  exact ⟨s, ⟨_, eq⟩, live, byte, result, returned, new, lost⟩

theorem moves_iff_sample :
    ∃ s result, Reachable sampleRegion (fun _ => 0#8) s ∧
      ⟨4104, 20⟩ ∈ s.live ∧
      bmRealloc s.mem 4104 40 s.record = some result ∧
      (Moves sampleRegion s ⟨4104, 20⟩ 40 result ↔
        Free s.mem 4096 1 ∨
          ∀ block, FirstFree s.mem s.record 5 s.record.ffa block →
            OneBlockSuffices sampleRegion s ⟨4104, 20⟩ 40 block) := by
  obtain ⟨s, reachable, live, -, result, returned, -⟩ := filled_blocks_reachable
  have member : (⟨4104, 20⟩ : Allocation) ∈ s.live := by simp [live]
  exact ⟨s, result, reachable, member, returned,
    moves_iff _ _ s _ 40 result reachable member returned⟩

/-- Three blocks moved to five: the second block is lost. -/
theorem second_block_not_moved :
    ¬ ∀ (r : Region) (prior : Memory) (s : Pool) (a : Allocation) (size : Nat)
        (result : Nat × Memory × Bitmap),
      Reachable r prior s → a ∈ s.live →
      bmRealloc s.mem a.ptr size s.record = some result → result.1 ≠ 0 →
        Moves r s a size result := by
  intro claim
  obtain ⟨s, reachable, live, byte, result, returned, new, lost⟩ :=
    filled_blocks_reachable
  have member : (⟨4104, 20⟩ : Allocation) ∈ s.live := by simp [live]
  have moves := claim sampleRegion _ s _ 40 result reachable member returned
    (by rw [new]; decide)
  have second := moves.moved 8 (by decide)
  rw [new, lost] at second
  rw [show (4104 : Nat) + 8 = 4112 from rfl, byte] at second
  exact absurd second (by decide)

end Pool
end Bitmap
end PivotOs
