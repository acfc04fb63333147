import PivotOs.Heap.Chain
import PivotOs.Bitmap.Initial
import PivotOs.Library.ByteImage

/-!
# Arrays on a heap

The kernel asks `halloc` for an array and fills it at once.  It does not look at
the pointer: without room the first byte is stored through the null pointer.  On
a heap from which nothing has been given back, the arrays lie one behind another,
and there is room as long as enough blocks are left.
-/

namespace PivotOs

open Bitmap

namespace Memory

/-- Stores of bytes one behind another.  Page 0 is mapped nowhere, so a store to
it faults. -/
def storeBytes (mem : Memory) (dest : Nat) : List (BitVec 8) → Option Memory
  | [] => some mem
  | byte :: bytes =>
      if dest < pageSize then none
      else (mem.write dest byte).storeBytes (wrap (dest + 1)) bytes

variable {mem after : Memory} {dest : Nat} {bytes : List (BitVec 8)}

/-- Stores to mapped memory return, and change no other byte. -/
theorem storeBytes_eq
    (mapped : pageSize ≤ dest)
    (fits : dest + bytes.length < 2 ^ 64) :
    ∃ after, mem.storeBytes dest bytes = some after ∧
      ByteImage.Stored after dest bytes ∧
      ∀ address, address < dest ∨ dest + bytes.length ≤ address →
        after address = mem address := by
  induction bytes generalizing mem dest with
  | nil =>
      exact ⟨mem, rfl, ByteImage.stored_nil, fun _ _ => rfl⟩
  | cons byte bytes inductionHypothesis =>
      rw [List.length_cons] at fits ⊢
      have next : wrap (dest + 1) = dest + 1 := wrap_of_lt (by omega)
      obtain ⟨after, stores, stored, others⟩ :=
        @inductionHypothesis (mem.write dest byte) (dest + 1) (by omega)
          (by omega)
      refine ⟨after, ?_, ByteImage.stored_cons.mpr ⟨?_, stored⟩, ?_⟩
      · rw [storeBytes, if_neg (Nat.not_lt.mpr mapped), next]
        exact stores
      · rw [others dest (by omega), write_same]
      · intro address outside
        rw [others address (by omega), write_other _ _ (by omega)]

/-- A store through the null pointer faults. -/
theorem storeBytes_null (some_bytes : bytes ≠ []) :
    mem.storeBytes 0 bytes = none := by
  cases bytes with
  | nil => exact absurd rfl some_bytes
  | cons byte bytes => exact if_pos (by decide)

end Memory

/-- The heap at `KHEAP`: the bytes of its regions and their records. -/
structure KernelHeap where
  /-- The bytes. -/
  mem : Memory
  /-- The records, first region first. -/
  chain : List Bitmap

namespace KernelHeap

/-- `halloc` for an array, and the stores that fill it: the pointer and the
heap. -/
def array (bytes : List (BitVec 8)) (heap : KernelHeap) :
    Option (Nat × KernelHeap) :=
  let new := halloc bytes.length heap.mem heap.chain
  (new.2.1.storeBytes new.1 bytes).map fun mem => (new.1, ⟨mem, new.2.2⟩)

variable {r : Region} {count size : Nat} {heap : KernelHeap}
  {bytes : List (BitVec 8)}

/-- The record of a region whose first blocks are in use. -/
def recordOf (r : Region) (count : Nat) : Bitmap where
  size := r.size
  bsize := r.bsize
  used := r.reserved + count
  ffa := r.reserved + count
  bm := r.base

/-- The heap has one region.  Behind the blocks of the bitmap `count` blocks are
in use, and all others are free. -/
structure Filled (r : Region) (count : Nat) (heap : KernelHeap) : Prop where
  chain_eq : heap.chain = [recordOf r count]
  inside : r.reserved + count ≤ r.tblocks
  free : ∀ block, r.reserved + count ≤ block → block < r.tblocks →
    Free heap.mem r.base block

/-- The blocks that are left. -/
def room (r : Region) (count : Nat) : Nat := r.tblocks - (r.reserved + count)

/-- A heap of one region as `init_bitmap` leaves it. -/
def fresh (r : Region) (prior : Memory) : KernelHeap where
  mem := (Pool.init r prior).mem
  chain := [(Pool.init r prior).record]

/-- Over ids that are zero, nothing is in use but the bitmap. -/
theorem filled_fresh
    {prior : Memory}
    (blank : Pool.Blank r prior) :
    Filled r 0 (fresh r prior) where
  chain_eq := rfl
  inside := r.reserved_le
  free := ((Pool.startsClean_iff r prior).mpr blank).rest_free

theorem halloc_singleton (size : Nat) (mem : Memory) (b : Bitmap) :
    halloc size mem [b] =
      ((bmAlloc mem size b).1, (bmAlloc mem size b).2.1,
        [(bmAlloc mem size b).2.2]) := by
  rw [halloc]
  by_cases null : (bmAlloc mem size b).1 = 0
  · rw [if_neg (not_not.mpr null), null]
    rfl
  · exact if_pos null

/-- No bytes need no blocks. -/
theorem divCeil_zero {bsize : Nat} (positive : 0 < bsize) :
    divCeil 0 bsize = 0 := by
  rw [divCeil, Nat.zero_add]
  exact Nat.div_eq_of_lt (lt_of_le_of_lt (Nat.mod_le _ _) (by omega))

namespace Filled

/-- Nothing before the first free block fits, so the search takes it. -/
theorem bmAlloc_eq
    (filled : Filled r count heap)
    (some_blocks : 0 < divCeil size r.bsize)
    (enough : divCeil size r.bsize ≤ room r count) :
    ∃ id, bmAlloc heap.mem size (recordOf r count) =
      (r.base + (r.reserved + count) * r.bsize,
        setRun heap.mem r.base (r.reserved + count) id (divCeil size r.bsize),
        recordOf r (count + divCeil size r.bsize)) := by
  rw [room] at enough
  have below := r.mul_bsize_le filled.inside
  have end_lt := r.fits
  have small := r.tblocks_le
  have fits : FirstFit.Fits (Free heap.mem r.base) r.tblocks
      (divCeil size r.bsize) (r.reserved + count) := by
    rw [FirstFit.fits_iff_run some_blocks]
    exact fun offset within =>
      ⟨by omega, filled.free _ (Nat.le_add_right _ _) (by omega)⟩
  obtain null | ⟨i, first, eq⟩ :=
    bmAlloc_cases heap.mem size (recordOf r count)
  · refine absurd fits (bmAlloc_null (b := recordOf r count) ?_ ?_
      (congrArg Prod.fst null) le_rfl)
    · change divCeil size r.bsize ≤ wrapSub r.tblocks (r.reserved + count)
      rwa [wrapSub_of_le (by omega) filled.inside]
    · intro block inside
      have product := r.mul_bsize_le (Nat.le_of_lt inside)
      change wrap (r.base + block * r.bsize) ≠ 0
      rw [wrap_of_lt (by omega)]
      exact r.ptr_ne_zero block
  · have here : i = r.reserved + count :=
      first.unique ⟨fits, le_rfl, fun other after before =>
        absurd before (Nat.not_lt.mpr after)⟩
    subst here
    refine ⟨newId heap.mem (recordOf r count) (r.reserved + count)
      (divCeil size r.bsize), eq.trans ?_⟩
    have used : wrap (r.reserved + (count + divCeil size r.bsize)) =
        r.reserved + (count + divCeil size r.bsize) := wrap_of_lt (by omega)
    have pointer : wrap (r.base + (r.reserved + count) * r.bsize) =
        r.base + (r.reserved + count) * r.bsize := wrap_of_lt (by omega)
    simp only [recordOf, if_true, used, pointer, Nat.add_assoc]

/-- Without room there is no pointer. -/
theorem bmAlloc_eq_null
    (filled : Filled r count heap)
    (full : room r count < divCeil size r.bsize) :
    bmAlloc heap.mem size (recordOf r count) =
      (0, heap.mem, recordOf r count) := by
  have small := r.tblocks_le
  have end_lt := r.fits
  rw [room] at full
  rw [bmAlloc]
  refine if_pos ?_
  rw [show (recordOf r count).tblocks = r.tblocks from rfl,
    show (recordOf r count).used = r.reserved + count from rfl,
    wrapSub_of_le (by omega) filled.inside]
  exact full

/-- A request for no blocks changes nothing. -/
theorem bmAlloc_of_none
    (filled : Filled r count heap)
    (none : divCeil size r.bsize = 0) :
    (bmAlloc heap.mem size (recordOf r count)).2 =
      (heap.mem, recordOf r count) := by
  have small := r.tblocks_le
  have end_lt := r.fits
  have inside := filled.inside
  obtain null | ⟨i, -, eq⟩ := bmAlloc_cases heap.mem size (recordOf r count)
  · rw [null]
  · have blocks : divCeil size (recordOf r count).bsize = 0 := none
    have used : wrap (r.reserved + count) = r.reserved + count :=
      wrap_of_lt (by omega)
    rw [eq, blocks]
    simp [recordOf, setRun, used]

/-- The bytes are found at the pointer, in blocks that are in use. -/
structure Kept (r : Region) (count : Nat) (heap : KernelHeap) (ptr : Nat)
    (bytes : List (BitVec 8)) : Prop where
  stored : ByteImage.Stored heap.mem ptr bytes
  inside : bytes ≠ [] → r.base + r.bitmapBytes ≤ ptr ∧
    ptr + bytes.length ≤ r.base + (r.reserved + count) * r.bsize

/-- An array that stays as it is. -/
theorem Kept.mono
    {more ptr : Nat} {after : KernelHeap}
    (kept : Kept r count heap ptr bytes)
    (same : ∀ address, r.base + r.bitmapBytes ≤ address →
      address < r.base + (r.reserved + count) * r.bsize →
        after.mem address = heap.mem address)
    (grown : count ≤ more) :
    Kept r more after ptr bytes where
  stored := by
    intro i within
    obtain ⟨above, below⟩ :=
      kept.inside (List.ne_nil_of_length_pos (by omega))
    rw [same _ (by omega) (by omega)]
    exact kept.stored i within
  inside := by
    intro some_bytes
    obtain ⟨above, below⟩ := kept.inside some_bytes
    have product := Nat.mul_le_mul_right r.bsize
      (Nat.add_le_add_left grown r.reserved)
    exact ⟨above, by omega⟩

/-- The ids lie in front of the blocks, so stores behind them leave the blocks
that follow free. -/
theorem advance
    {after : Memory} {blocks : Nat} {id : BitVec 8}
    (filled : Filled r count heap)
    (endLe : r.reserved + count + blocks ≤ r.tblocks)
    (same : ∀ address, address < r.base + (r.reserved + count) * r.bsize →
      after address =
        setRun heap.mem r.base (r.reserved + count) id blocks address) :
    Filled r (count + blocks) ⟨after, [recordOf r (count + blocks)]⟩ where
  chain_eq := rfl
  inside := by omega
  free := by
    intro block behind within
    have bitmap := r.bitmapBytes_le
    have start := Nat.mul_le_mul_right r.bsize
      (Nat.le_add_right r.reserved count)
    have row : r.base + block / 4 < r.base + r.bitmapBytes := by
      simp only [Region.bitmapBytes]
      omega
    have kept : after (wrap (r.base + block / blocksPerInt)) =
        setRun heap.mem r.base (r.reserved + count) id blocks
          (wrap (r.base + block / blocksPerInt)) := by
      rw [blocksPerInt_eq, wrap_of_lt (r.row_fits within.le)]
      exact same _ (by omega)
    have unset := getBm_setRun_outside heap.mem id (r.row_fits endLe)
      (r.row_fits within.le) (.inr (by omega))
    change after (wrap (r.base + block / blocksPerInt)) &&&
      idMask <<< column block = 0#8
    rw [kept]
    exact unset.trans (filled.free block (by omega) within)

/-- An array with bytes in it, where there is room. -/
theorem array_cons
    (filled : Filled r count heap)
    (some_bytes : 0 < bytes.length)
    (covered : bytes.length ≤ divCeil bytes.length r.bsize * r.bsize)
    (enough : divCeil bytes.length r.bsize ≤ room r count) :
    ∃ ptr after, heap.array bytes = some (ptr, after) ∧
      Filled r (count + divCeil bytes.length r.bsize) after ∧
      Kept r (count + divCeil bytes.length r.bsize) after ptr bytes ∧
      ∀ address, r.base + r.bitmapBytes ≤ address →
        address < r.base + (r.reserved + count) * r.bsize →
          after.mem address = heap.mem address := by
  have some_blocks : 0 < divCeil bytes.length r.bsize := by
    by_contra none
    rw [Nat.eq_zero_of_not_pos none] at covered
    omega
  obtain ⟨id, eq⟩ := filled.bmAlloc_eq some_blocks enough
  have inside := filled.inside
  rw [room] at enough
  have endLe : r.reserved + count + divCeil bytes.length r.bsize ≤
      r.tblocks := by omega
  have product := r.mul_bsize_le endLe
  rw [Nat.add_mul] at product
  have above := r.above_null
  have end_lt := r.fits
  obtain ⟨after, stores, stored, others⟩ := @Memory.storeBytes_eq
    (setRun heap.mem r.base (r.reserved + count) id
      (divCeil bytes.length r.bsize))
    (r.base + (r.reserved + count) * r.bsize) bytes (by omega) (by omega)
  refine ⟨r.base + (r.reserved + count) * r.bsize,
    ⟨after, [recordOf r (count + divCeil bytes.length r.bsize)]⟩, ?_,
    filled.advance endLe fun address before => others address (.inl before),
    ⟨stored, fun _ => ⟨?_, ?_⟩⟩, fun address behind before => ?_⟩
  · simp only [array, filled.chain_eq, halloc_singleton, eq, stores,
      Option.map_some]
  · have bitmap := r.bitmapBytes_le
    have start := Nat.mul_le_mul_right r.bsize
      (Nat.le_add_right r.reserved count)
    omega
  · rw [← Nat.add_assoc, Nat.add_mul (r.reserved + count)]
    omega
  · exact (others address (.inl before)).trans
      (Pool.setRun_bytes heap.mem id endLe (.inr behind))

/-- The array gets its blocks and keeps its bytes, and so do the arrays before
it, where there is room. -/
theorem array_of_room
    (filled : Filled r count heap)
    (covered : bytes.length ≤ divCeil bytes.length r.bsize * r.bsize)
    (enough : divCeil bytes.length r.bsize ≤ room r count) :
    ∃ ptr after, heap.array bytes = some (ptr, after) ∧
      Filled r (count + divCeil bytes.length r.bsize) after ∧
      Kept r (count + divCeil bytes.length r.bsize) after ptr bytes ∧
      ∀ old earlier, Kept r count heap old earlier →
        Kept r (count + divCeil bytes.length r.bsize) after old earlier := by
  by_cases some_bytes : 0 < bytes.length
  · obtain ⟨ptr, after, eq, filledAfter, kept, same⟩ :=
      filled.array_cons some_bytes covered enough
    exact ⟨ptr, after, eq, filledAfter, kept,
      fun old earlier before => before.mono same (Nat.le_add_right _ _)⟩
  · obtain rfl := List.eq_nil_of_length_eq_zero (Nat.eq_zero_of_not_pos some_bytes)
    have none := divCeil_zero r.bsize_pos
    have unchanged := filled.bmAlloc_of_none none
    refine ⟨(bmAlloc heap.mem 0 (recordOf r count)).1, heap, ?_, ?_,
      ⟨ByteImage.stored_nil, fun some_bytes => absurd rfl some_bytes⟩, ?_⟩
    · simp only [array, List.length_nil, filled.chain_eq, halloc_singleton,
        unchanged, Memory.storeBytes, Option.map_some]
      rw [← filled.chain_eq]
    · rw [List.length_nil, none]
      exact filled
    · intro old earlier kept
      rw [List.length_nil, none]
      exact kept

/-- The first store faults where there is no room. -/
theorem array_of_full
    (filled : Filled r count heap)
    (full : room r count < divCeil bytes.length r.bsize) :
    heap.array bytes = none := by
  have some_bytes : bytes ≠ [] := by
    rintro rfl
    rw [List.length_nil, divCeil_zero r.bsize_pos] at full
    exact Nat.not_lt_zero _ full
  rw [array, filled.chain_eq, halloc_singleton, filled.bmAlloc_eq_null full]
  rw [Memory.storeBytes_null some_bytes, Option.map_none]

end Filled

/-! ## The heap at boot -/

/-- A heap as `heap_add(1, HEAP_DEFAULT_BS, &KVMM, NULL)` leaves it over ids that
are zero. -/
def Booted (heap : KernelHeap) : Prop :=
  ∃ (r : Region) (prior : Memory), r.size = pageSize - heapHeader ∧
    r.bsize = heapDefaultBs ∧ Pool.Blank r prior ∧ heap = fresh r prior

/-- The blocks of a page that hold neither the `heap_t` nor the bitmap. -/
def bootRoom : Nat :=
  (pageSize - heapHeader) / heapDefaultBs -
    bmBlocks (pageSize - heapHeader) heapDefaultBs

example : bootRoom = 249 := by decide

/-- It comes from `heap_add`. -/
theorem booted_of_heapAdd
    {s space : Space} {start : Nat} {result : Nat × Bitmap × Space}
    (added : s.heapAdd 1 heapDefaultBs = some result)
    (allocated : s.valloc 1 = some (start, space))
    (above : pageSize ≤ start)
    (fits : start + 1 * pageSize < 2 ^ 64)
    (blank : Pool.Blank (newRegion (by decide : 0 < heapDefaultBs) above
      Nat.one_pos fits) space.mem) :
    Booted ⟨result.2.2.mem, [result.2.1]⟩ := by
  obtain ⟨_, _, also, -, rfl⟩ := Space.heapAdd_cases added
  obtain ⟨rfl, rfl⟩ := Prod.mk.inj (Option.some.inj (allocated.symm.trans also))
  refine ⟨_, space.mem, ?_, rfl, blank, ?_⟩
  · exact congrArg (· - heapHeader) (Nat.one_mul pageSize)
  · have made := initBitmap_newRegion (by decide : 0 < heapDefaultBs) above
      Nat.one_pos fits space.mem
    have page : wrap (1 * pageSize) = 1 * pageSize := wrap_of_lt (by decide)
    simp only [page, made, fresh]

theorem Booted.filled (booted : heap.Booted) :
    ∃ r, r.bsize = heapDefaultBs ∧ room r 0 = bootRoom ∧ Filled r 0 heap := by
  obtain ⟨r, prior, size_eq, bsize_eq, blank, rfl⟩ := booted
  refine ⟨r, bsize_eq, ?_, filled_fresh blank⟩
  rw [room, Region.tblocks, Region.reserved, size_eq, bsize_eq, Nat.add_zero]
  rfl

end KernelHeap
end PivotOs
