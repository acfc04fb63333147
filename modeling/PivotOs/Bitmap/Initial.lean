import PivotOs.Bitmap.Confined

/-!
# What `init_bitmap` leaves

`init_bitmap` first gives every block the id 0 and then the id 1 to the blocks
that hold the bitmap.  The first pass is no change, since `set_bm` only sets
bits, so the ids the memory held before show through.
-/

namespace PivotOs
namespace Bitmap
namespace Pool

variable {r : Region} {prior : Memory}

/-- The id 1 at the column of a block. -/
def idOne (block : Nat) : BitVec 8 := 1#8 <<< column block

/-- A fresh region: the bitmap's own blocks have the id 1, all others are free
and the record counts the former. -/
structure StartsClean (r : Region) (prior : Memory) : Prop where
  /-- The bitmap's own blocks have the id 1. -/
  reserved_one : ∀ block, block < r.reserved →
    getBm (init r prior).mem r.base block = idOne block
  /-- The other blocks are free. -/
  rest_free : ∀ block, r.reserved ≤ block → block < r.tblocks →
    Free (init r prior).mem r.base block
  /-- The bitmap's own blocks are counted as used. -/
  used_eq : (init r prior).record.used = r.reserved
  /-- The first search starts behind them. -/
  ffa_eq : (init r prior).record.ffa = r.reserved
  /-- Every id has its byte inside the bitmap's own blocks. -/
  row_inside : ∀ block, block < r.tblocks →
    r.base ≤ wrap (r.base + block / blocksPerInt) ∧
      wrap (r.base + block / blocksPerInt) < r.base + r.reserved * r.bsize
  /-- No byte behind or before these blocks is changed. -/
  confined : ∀ address, r.BeyondBitmap address →
    (init r prior).mem address = prior address

/-- Ids that the two passes of `init_bitmap` bring to their initial values. -/
structure Blank (r : Region) (prior : Memory) : Prop where
  /-- The bitmap's own blocks have the id 0 or 1. -/
  reserved_small : ∀ block, block < r.reserved →
    getBm prior r.base block = 0#8 ∨ getBm prior r.base block = idOne block
  /-- The other blocks have the id 0. -/
  rest_zero : ∀ block, r.reserved ≤ block → block < r.tblocks →
    getBm prior r.base block = 0#8

/-- Setting the bit of the id 1 gives the id 1 only over the ids 0 and 1. -/
theorem or_idOne_eq_iff (byte : BitVec 8) (block : Nat) :
    byte &&& idMask <<< column block ||| (1#8 &&& idMask) <<< column block =
        idOne block ↔
      byte &&& idMask <<< column block = 0#8 ∨
        byte &&& idMask <<< column block = idOne block := by
  unfold idOne
  rcases column_cases block with ⟨-, col⟩ | ⟨-, col⟩ | ⟨-, col⟩ | ⟨-, col⟩ <;>
    rw [col] <;> revert byte <;> decide

theorem init_getBm_rest
    {block : Nat}
    (behind : r.reserved ≤ block)
    (below : block < r.tblocks) :
    getBm (init r prior).mem r.base block = getBm prior r.base block := by
  have fits : r.base + (0 + r.reserved) / 4 < 2 ^ 64 := by
    simpa using r.row_fits r.reserved_le
  rw [init_mem]
  exact getBm_setRun_outside prior 1#8 fits (r.row_fits below.le)
    (Or.inr (by omega))

/-- The byte of every id lies in the bitmap's own blocks. -/
theorem Region.row_inside (r : Region) {block : Nat} (below : block < r.tblocks) :
    r.base ≤ wrap (r.base + block / blocksPerInt) ∧
      wrap (r.base + block / blocksPerInt) < r.base + r.reserved * r.bsize := by
  have bytes := r.bitmapBytes_le
  simp only [Region.bitmapBytes] at bytes
  rw [blocksPerInt_eq, wrap_of_lt (r.row_fits below.le)]
  omega

/-- `init_bitmap` brings a region to its initial state exactly over ids that
are zero already, those of the bitmap's own blocks being allowed to be 1. -/
theorem startsClean_iff (r : Region) (prior : Memory) :
    StartsClean r prior ↔ Blank r prior := by
  constructor
  · intro clean
    constructor
    · intro block below
      have one := clean.reserved_one block below
      rw [init_getBm_reserved below] at one
      exact (or_idOne_eq_iff _ block).mp one
    · intro block behind below
      have free := clean.rest_free block behind below
      rwa [Free, init_getBm_rest behind below] at free
  · intro blank
    refine
      { reserved_one := ?_
        rest_free := ?_
        used_eq := rfl
        ffa_eq := rfl
        row_inside := fun block below => Region.row_inside r below
        confined := fun address beyond => init_confined prior beyond }
    · intro block below
      rw [init_getBm_reserved below]
      exact (or_idOne_eq_iff _ block).mpr (blank.reserved_small block below)
    · intro block behind below
      rw [Free, init_getBm_rest behind below]
      exact blank.rest_zero block behind below

/-- Over memory of all ones no block behind the bitmap's own is free. -/
theorem recycled_memory_not_clean :
    ¬ ∀ (r : Region) (prior : Memory), StartsClean r prior := by
  intro claim
  have free := (claim sampleRegion fun _ => 0xFF#8).rest_free 1
    (by decide) (by decide)
  exact absurd free (by decide)

end Pool
end Bitmap
end PivotOs
