import PivotOs.Word

/-!
# The block bitmap

`mem/bitmap.c` hands out runs of equally sized blocks of one region.  The
region's own first blocks hold the bitmap: two bits per block, four blocks to
a byte, an id of zero meaning that the block is free.  A `Bitmap` is the
`bitmap_t` record, and the bytes themselves live in a `Memory` indexed by
address, so that the bitmap and the blocks it describes share one store.
Sizes and addresses are natural numbers, reduced modulo `2 ^ 64` wherever the
C expression can wrap.
-/

namespace PivotOs

/-- Bytes by address. -/
abbrev Memory := Nat → BitVec 8

namespace Memory

/-- Store one byte. -/
def write (mem : Memory) (address : Nat) (byte : BitVec 8) : Memory :=
  fun other => if other = address then byte else mem other

@[simp] theorem write_same
    (mem : Memory) (address : Nat) (byte : BitVec 8) :
    mem.write address byte address = byte := by
  simp [write]

theorem write_other
    (mem : Memory) (byte : BitVec 8)
    {address other : Nat}
    (different : other ≠ address) :
    mem.write address byte other = mem other := by
  simp [write, different]

/-- `memcpy`.  Page 0 is mapped nowhere (`map_addr` and the loader both leave
it out), so a store through a null destination faults and the call does not
return; the result is then `none`. -/
def memcpy (mem : Memory) (dest src : Nat) : Nat → Option Memory
  | 0 => some mem
  | len + 1 =>
      if dest < pageSize then none
      else
        memcpy (mem.write dest (mem src)) (wrap (dest + 1)) (wrap (src + 1))
          len

end Memory

namespace Bitmap

/-- `BITS_PER_ID`. -/
def bitsPerId : Nat := 2

/-- `BLOCKS_PER_INT`. -/
def blocksPerInt : Nat := 8 / bitsPerId

theorem blocksPerInt_eq : blocksPerInt = 4 := rfl

/-- `BM_BLOCKS`: the blocks at the start of the region that hold the bitmap. -/
def bmBlocks (size bsize : Nat) : Nat :=
  divCeil (divCeil (size / bsize) blocksPerInt) bsize

/-- The mask `(1 << BITS_PER_ID) - 1` of one id. -/
def idMask : BitVec 8 := 1#8 <<< bitsPerId - 1#8

/-- Bit position of a block's id inside its byte. -/
def column (block : Nat) : Nat := block % blocksPerInt * bitsPerId

/-- `set_bm`. -/
def setBm (mem : Memory) (bm block : Nat) (id : BitVec 8) : Memory :=
  let row := wrap (bm + block / blocksPerInt)
  mem.write row
    (mem row ||| (id &&& idMask) <<< column block)

/-- `get_bm`.  The id is returned at its bit position, not shifted down. -/
def getBm (mem : Memory) (bm block : Nat) : BitVec 8 :=
  mem (wrap (bm + block / blocksPerInt)) &&& idMask <<< column block

/-- The loop of `bm_unique_id`, counting up from `c`. -/
def bmUniqueIdFrom (a b : BitVec 8) : Nat → BitVec 8 → BitVec 8
  | 0, c => c
  | fuel + 1, c =>
      if c = a ∨ c = b then bmUniqueIdFrom a b fuel (c + 1#8) else c

/-- `bm_unique_id`.  The counter is a byte, so 256 rounds see every value. -/
def bmUniqueId (a b : BitVec 8) : BitVec 8 :=
  bmUniqueIdFrom a b 256 1#8

/-- The loops `set_bm(bm, start + j, id)` for `j < count`. -/
def setRun (mem : Memory) (bm start : Nat) (id : BitVec 8) : Nat → Memory
  | 0 => mem
  | count + 1 => setBm (setRun mem bm start id count) bm (start + count) id

end Bitmap

/-- `bitmap_t`. -/
structure Bitmap where
  /-- Bytes in the region. -/
  size : Nat
  /-- Bytes in a block. -/
  bsize : Nat
  /-- Used blocks. -/
  used : Nat
  /-- Where the next search starts. -/
  ffa : Nat
  /-- Address of the region, and of the bitmap at its start. -/
  bm : Nat
  deriving DecidableEq

namespace Bitmap

/-- `b->size / b->bsize`. -/
def tblocks (b : Bitmap) : Nat := b.size / b.bsize

/-- `init_bitmap`. -/
def initBitmap (mem : Memory) (b : Bitmap) (size bsize : Nat) :
    Memory × Bitmap :=
  let b := { b with bsize := bsize, size := size }
  let mem := setRun mem b.bm 0 0#8 b.tblocks
  let blocks := bmBlocks b.size b.bsize
  (setRun mem b.bm 0 1#8 blocks, { b with ffa := blocks, used := blocks })

/-- The inner loop of `bm_alloc`: the free blocks from `i` on, at most
`count` of them. -/
def freeRun (mem : Memory) (b : Bitmap) : (count i : Nat) → Nat
  | 0, _ => 0
  | count + 1, i =>
      if i < b.tblocks ∧ getBm mem b.bm i = 0#8 then
        freeRun mem b count (i + 1) + 1
      else 0

/-- The outer loop of `bm_alloc`: the block at which it stops, or `none` when
it runs off the end.  Every round moves `i` forward, so `tblocks - i` rounds
are enough. -/
def search (mem : Memory) (b : Bitmap) (nblocks : Nat) :
    (fuel i : Nat) → Option Nat
  | 0, _ => none
  | fuel + 1, i =>
      if i < b.tblocks then
        if getBm mem b.bm i ≠ 0#8 then search mem b nblocks fuel (i + 1)
        else
          let fblocks := freeRun mem b nblocks i
          if fblocks = nblocks then some i
          else search mem b nblocks fuel (i + fblocks + 1)
      else none

/-- The id `bm_alloc` writes into the blocks `[i, i + fblocks)`. -/
def newId (mem : Memory) (b : Bitmap) (i fblocks : Nat) : BitVec 8 :=
  bmUniqueId
    (if 0 < i then getBm mem b.bm (i - 1) else 0#8)
    (if i + fblocks < b.tblocks - 1 then getBm mem b.bm (i + fblocks)
      else 0#8)

/-- `bm_alloc`.  The null pointer is the address 0. -/
def bmAlloc (mem : Memory) (size : Nat) (b : Bitmap) : Nat × Memory × Bitmap :=
  let nblocks := divCeil size b.bsize
  if wrapSub b.tblocks b.used < nblocks then (0, mem, b)
  else
    match search mem b nblocks (b.tblocks - b.ffa) b.ffa with
    | none => (0, mem, b)
    | some i =>
        (wrap (b.bm + i * b.bsize),
          setRun mem b.bm i (newId mem b i nblocks) nblocks,
          { b with
            ffa := if i = b.ffa then i + nblocks else b.ffa
            used := wrap (b.used + nblocks) })

/-- The address test that `bm_free` and `bm_realloc` share. -/
def outside (b : Bitmap) (address : Nat) : Prop :=
  address < wrap (b.bm + bmBlocks b.size b.bsize * b.bsize) ∨
    wrap (b.bm + b.size) ≤ address

instance (b : Bitmap) (address : Nat) : Decidable (b.outside address) :=
  inferInstanceAs (Decidable (_ ∨ _))

/-- The block a pointer falls in. -/
def blockOf (b : Bitmap) (address : Nat) : Nat :=
  wrapSub address b.bm / b.bsize

/-- The loop of `bm_free` from `block` on: the memory it leaves and the number
of blocks it went over.  It stops at `tblocks`, so `tblocks - block` rounds are
enough. -/
def freeLoop (b : Bitmap) (id : BitVec 8) :
    (fuel block : Nat) → Memory → Memory × Nat
  | 0, _, mem => (mem, 0)
  | fuel + 1, block, mem =>
      if getBm mem b.bm block = id ∧ block < b.tblocks then
        let rest := freeLoop b id fuel (block + 1) (setBm mem b.bm block 0#8)
        (rest.1, rest.2 + 1)
      else (mem, 0)

/-- `bm_free`: the value returned, the memory and the record. -/
def bmFree (mem : Memory) (ptr : Nat) (b : Bitmap) : Nat × Memory × Bitmap :=
  if b.outside ptr then (0, mem, b)
  else
    let sblock := b.blockOf ptr
    let id := getBm mem b.bm sblock
    let walk := freeLoop b id (b.tblocks - sblock) sblock mem
    (wrap (walk.2 * b.bsize), walk.1,
      { b with ffa := if sblock < b.ffa then sblock else b.ffa })

/-- The loop of `bm_realloc` that measures the old allocation. -/
def runLength (mem : Memory) (b : Bitmap) (id : BitVec 8) :
    (fuel block : Nat) → Nat
  | 0, _ => 0
  | fuel + 1, block =>
      if getBm mem b.bm block = id ∧ block < b.tblocks then
        runLength mem b id fuel (block + 1) + 1
      else 0

/-- `bm_realloc`; `none` when the copy faults. -/
def bmRealloc (mem : Memory) (old newSize : Nat) (b : Bitmap) :
    Option (Nat × Memory × Bitmap) :=
  if b.outside old then some (0, mem, b)
  else
    let (new, mem, b) := bmAlloc mem newSize b
    let sblock := b.blockOf old
    let id := getBm mem b.bm sblock
    let i := runLength mem b id (b.tblocks - sblock) sblock
    (mem.memcpy new old (wrap (i * b.bsize))).map fun mem =>
      (new, (bmFree mem old b).2)

end Bitmap
end PivotOs
