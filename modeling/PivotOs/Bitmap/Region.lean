import PivotOs.Bitmap.Search
import PivotOs.Library.Runs
import Mathlib.Order.Interval.Set.Basic

/-!
# Regions, live allocations and runs

A region is mapped memory: it lies above page 0 and ends below the top of the
address space, so that its one-past-the-end address exists.  The state of a
client of the allocator is the memory, the `bitmap_t` record and the list of
allocations that are live; its calls are `bm_alloc`, `bm_free` and `bm_realloc`
on live pointers, and stores into the blocks of a live allocation.
-/

namespace PivotOs
namespace Bitmap

/-- The arguments of `init_bitmap`, with what any mapped region satisfies. -/
structure Region where
  /-- Address of the region. -/
  base : Nat
  /-- Bytes in the region. -/
  size : Nat
  /-- Bytes in a block. -/
  bsize : Nat
  /-- Blocks are not empty. -/
  bsize_pos : 0 < bsize
  /-- Page 0 is never mapped. -/
  above_null : pageSize ≤ base
  /-- The end of the region is an address. -/
  fits : base + size < 2 ^ 64

namespace Region

/-- Blocks in the region. -/
def tblocks (r : Region) : Nat := r.size / r.bsize

/-- Blocks that hold the bitmap. -/
def reserved (r : Region) : Nat := bmBlocks r.size r.bsize

/-- Bytes of the bitmap. -/
def bitmapBytes (r : Region) : Nat := (r.tblocks + 3) / 4

theorem tblocks_mul_le (r : Region) : r.tblocks * r.bsize ≤ r.size :=
  Nat.div_mul_le_self r.size r.bsize

theorem tblocks_le (r : Region) : r.tblocks ≤ r.size :=
  Nat.div_le_self r.size r.bsize

theorem mul_bsize_le (r : Region) {block : Nat} (inside : block ≤ r.tblocks) :
    block * r.bsize ≤ r.size :=
  le_trans (Nat.mul_le_mul_right r.bsize inside) r.tblocks_mul_le

/-- No block is at the null pointer. -/
theorem ptr_ne_zero (r : Region) (block : Nat) :
    r.base + block * r.bsize ≠ 0 := by
  have above := r.above_null
  simp only [pageSize] at above
  omega

/-- The row of every block is an address. -/
theorem row_fits (r : Region) {block : Nat} (inside : block ≤ r.tblocks) :
    r.base + block / 4 < 2 ^ 64 := by
  have small := r.tblocks_le
  have fits := r.fits
  omega

theorem reserved_eq (r : Region) :
    r.reserved = (r.bitmapBytes + (r.bsize - 1)) / r.bsize := by
  have positive := r.bsize_pos
  have fits := r.fits
  have above := r.above_null
  have small := r.tblocks_le
  have product := r.tblocks_mul_le
  simp only [pageSize] at above
  have inner : divCeil r.tblocks blocksPerInt = r.bitmapBytes := by
    simp only [divCeil, blocksPerInt_eq, bitmapBytes]
    rw [wrap_of_lt (by omega)]
  change divCeil (divCeil r.tblocks blocksPerInt) r.bsize = _
  rw [inner, divCeil]
  by_cases empty : r.tblocks = 0
  · -- An empty bitmap: both sides are zero, whatever the block size.
    have noBytes : r.bitmapBytes = 0 := by simp [bitmapBytes, empty]
    rw [noBytes, Nat.zero_add, Nat.div_eq_of_lt, Nat.div_eq_of_lt]
    · omega
    · exact lt_of_le_of_lt (Nat.mod_le _ _) (by omega)
  · rw [wrap_of_lt]
    have bytes : r.bitmapBytes ≤ r.tblocks := by
      simp only [bitmapBytes]
      omega
    have sum : r.tblocks + r.bsize ≤ r.tblocks * r.bsize + 1 := by
      nlinarith [Nat.pos_of_ne_zero empty]
    omega

/-- The reserved blocks hold the whole bitmap. -/
theorem bitmapBytes_le (r : Region) : r.bitmapBytes ≤ r.reserved * r.bsize := by
  rw [reserved_eq]
  have positive := r.bsize_pos
  have division := Nat.div_add_mod (r.bitmapBytes + (r.bsize - 1)) r.bsize
  have remainder := Nat.mod_lt (r.bitmapBytes + (r.bsize - 1)) positive
  rw [Nat.mul_comm] at division
  omega

theorem reserved_le (r : Region) : r.reserved ≤ r.tblocks := by
  rw [reserved_eq]
  have positive := r.bsize_pos
  apply Nat.le_of_lt_succ
  rw [Nat.div_lt_iff_lt_mul positive, Nat.succ_mul]
  have bytes : r.bitmapBytes ≤ r.tblocks := by
    simp only [bitmapBytes]
    omega
  have grows : r.tblocks ≤ r.tblocks * r.bsize :=
    Nat.le_mul_of_pos_right _ positive
  omega

end Region

/-- An allocation: the pointer returned and the size asked for. -/
structure Allocation where
  /-- The pointer. -/
  ptr : Nat
  /-- The requested size. -/
  request : Nat
  deriving DecidableEq

namespace Allocation

/-- Number of blocks of an allocation. -/
def blocks (a : Allocation) (bsize : Nat) : Nat := divCeil a.request bsize

/-- Bytes of the blocks of an allocation. -/
def range (a : Allocation) (bsize : Nat) : Set Nat :=
  Set.Ico a.ptr (a.ptr + a.blocks bsize * bsize)

end Allocation

/-- Allocator, memory and live allocations. -/
structure Pool where
  /-- All bytes, those of the bitmap included. -/
  mem : Memory
  /-- The `bitmap_t` record. -/
  record : Bitmap
  /-- Allocations not yet freed. -/
  live : List Allocation

/-- What a client may do. -/
inductive Call
  | alloc (size : Nat)
  | free (allocation : Allocation)
  | realloc (allocation : Allocation) (size : Nat)
  | store (address : Nat) (byte : BitVec 8)

namespace Pool

/-- A byte of a live allocation. -/
def Owned (s : Pool) (address : Nat) : Prop :=
  ∃ a ∈ s.live, a.ptr ≤ address ∧
    address < a.ptr + a.blocks s.record.bsize * s.record.bsize

instance (s : Pool) (address : Nat) : Decidable (s.Owned address) :=
  inferInstanceAs (Decidable (∃ a ∈ s.live, _))

/-- The pool after `init_bitmap`. -/
def init (r : Region) (prior : Memory) : Pool :=
  let fresh := initBitmap prior
    { size := 0, bsize := 0, used := 0, ffa := 0, bm := r.base } r.size r.bsize
  { mem := fresh.1, record := fresh.2, live := [] }

/-- Carry out one call.  Calls on pointers that are not live, and stores
outside the live blocks, are no part of a run; a call that faults does not
return. -/
def exec (s : Pool) : Call → Option Pool
  | .alloc size =>
      let new := bmAlloc s.mem size s.record
      some
        { mem := new.2.1
          record := new.2.2
          live := if new.1 = 0 then s.live else ⟨new.1, size⟩ :: s.live }
  | .free a =>
      if a ∈ s.live then
        let freed := bmFree s.mem a.ptr s.record
        some
          { mem := freed.2.1
            record := freed.2.2
            live := s.live.erase a }
      else none
  | .realloc a size =>
      if a ∈ s.live then
        (bmRealloc s.mem a.ptr size s.record).map fun new =>
          { mem := new.2.1
            record := new.2.2
            live := if new.1 = 0 then s.live
              else ⟨new.1, size⟩ :: s.live.erase a }
      else none
  | .store address byte =>
      if s.Owned address then
        some { s with mem := s.mem.write address byte }
      else none

theorem exec_free
    {s next : Pool} {a : Allocation}
    (stepped : s.exec (.free a) = some next) :
    a ∈ s.live ∧
      next =
        { mem := (bmFree s.mem a.ptr s.record).2.1
          record := (bmFree s.mem a.ptr s.record).2.2
          live := s.live.erase a } := by
  obtain ⟨member, freed⟩ := Option.ite_none_right_eq_some.mp stepped
  exact ⟨member, (Option.some.inj freed).symm⟩

theorem exec_realloc
    {s next : Pool} {a : Allocation} {size : Nat}
    (stepped : s.exec (.realloc a size) = some next) :
    a ∈ s.live ∧
      ∃ new, bmRealloc s.mem a.ptr size s.record = some new ∧
        next =
          { mem := new.2.1
            record := new.2.2
            live := if new.1 = 0 then s.live
              else ⟨new.1, size⟩ :: s.live.erase a } := by
  obtain ⟨member, moved⟩ := Option.ite_none_right_eq_some.mp stepped
  obtain ⟨new, realloc_eq, same⟩ := Option.map_eq_some_iff.mp moved
  exact ⟨member, new, realloc_eq, same.symm⟩

theorem exec_store
    {s next : Pool} {address : Nat} {byte : BitVec 8}
    (stepped : s.exec (.store address byte) = some next) :
    s.Owned address ∧
      next = { s with mem := s.mem.write address byte } := by
  obtain ⟨owned, stored⟩ := Option.ite_none_right_eq_some.mp stepped
  exact ⟨owned, (Option.some.inj stored).symm⟩

/-- The states that the calls lead to from a fresh region. -/
def Reachable (r : Region) (prior : Memory) (s : Pool) : Prop :=
  ∃ calls, Runs.run exec (init r prior) calls = some s

end Pool
end Bitmap
end PivotOs
