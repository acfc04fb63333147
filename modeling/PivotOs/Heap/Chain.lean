import PivotOs.Bitmap.Confined
import PivotOs.Heap.Defs
import PivotOs.Library.Runs
import Mathlib.Data.List.Pairwise

/-!
# Chains of regions

The state of a client of a heap is the VMM with the ranges that are in use, and
the chain with the allocations that are live in each region.  The client may
add regions, call `halloc`, `hfree` and `hrealloc`, and store into its
allocations; others may take and give back ranges of the same VMM.  In every
run each region is an allocator of its own, inside its own range.
-/

namespace PivotOs

open Bitmap

/-- A region of a heap, with the allocations in its callers' hands. -/
structure HeapRegion where
  /-- The range of the VMM, with the `heap_t` at its start. -/
  range : Allocation
  /-- `bm`. -/
  bm : Bitmap
  /-- Allocations not yet given to `hfree` or `hrealloc`. -/
  live : List Allocation

/-- A VMM and a chain of regions in its ranges. -/
structure Heap where
  /-- The machine and the VMM. -/
  space : Space
  /-- Ranges returned by `valloc` and not yet given to `vfree`. -/
  ranges : List Allocation
  /-- The regions, first one first. -/
  chain : List HeapRegion

/-- What the clients may do. -/
inductive HeapCall
  | add (pages bsize : Nat)
  | alloc (size : Nat)
  | free (allocation : Allocation)
  | realloc (allocation : Allocation) (size : Nat)
  | store (address : Nat) (byte : BitVec 8)
  | valloc (pages : Nat)
  | vfree (range : Allocation)

namespace HeapRegion

/-- The allocator of a region. -/
def pool (g : HeapRegion) (mem : Memory) : Pool where
  mem := mem
  record := g.bm
  live := g.live

/-- `halloc` on a chain that keeps the live allocations. -/
def halloc (size : Nat) :
    Memory → List HeapRegion → Nat × Memory × List HeapRegion
  | mem, [] => (0, mem, [])
  | mem, g :: rest =>
      let new := bmAlloc mem size g.bm
      if new.1 ≠ 0 then
        (new.1, new.2.1,
          { g with bm := new.2.2, live := ⟨new.1, size⟩ :: g.live } :: rest)
      else
        let later := halloc size new.2.1 rest
        (later.1, later.2.1, { g with bm := new.2.2 } :: later.2.2)

/-- It is `halloc` on the records. -/
theorem halloc_eq (size : Nat) (mem : Memory) (chain : List HeapRegion) :
    Bitmap.halloc size mem (chain.map bm) =
      ((halloc size mem chain).1, (halloc size mem chain).2.1,
        (halloc size mem chain).2.2.map bm) := by
  induction chain generalizing mem with
  | nil => rfl
  | cons g rest inductionHypothesis =>
      simp only [List.map_cons, Bitmap.halloc, halloc]
      split
      · rfl
      · simp only [inductionHypothesis, List.map_cons]

/-- Put the records of a chain back. -/
def withRecords (chain : List HeapRegion) (records : List Bitmap) :
    List HeapRegion :=
  List.zipWith (fun g bm => { g with bm := bm }) chain records

/-- The allocation is live in the region no longer. -/
def drop (a : Allocation) (g : HeapRegion) : HeapRegion :=
  { g with live := g.live.erase a }

/-- `hrealloc` moves an allocation to another place of the first region. -/
def moved (a : Allocation) (new size : Nat) :
    List HeapRegion → List HeapRegion
  | [] => []
  | g :: rest =>
      { g with
        live := if new = 0 then g.live
          else ⟨new, size⟩ :: g.live.erase a } :: rest

end HeapRegion

/-- `heap_add` puts an allocator behind the header at the start of a range that
`valloc` has returned, which is never the null page. -/
theorem Space.heapAdd_cases
    {s : Space} {pages bsize : Nat} {result : Nat × Bitmap × Space}
    (added : s.heapAdd pages bsize = some result) :
    ∃ start space, s.valloc pages = some (start, space) ∧ pageSize ≤ start ∧
      let fresh := Bitmap.initBitmap space.mem
        { size := 0, bsize := 0, used := 0, ffa := 0
          bm := wrap (start + heapHeader) }
        (wrapSub (wrap (pages * pageSize)) heapHeader) bsize
      result = (start, fresh.2, { space with mem := fresh.1 }) := by
  obtain ⟨⟨start, space⟩, allocated, added⟩ :=
    Option.bind_eq_some_iff.mp added
  split at added
  · simp at added
  · rename_i mapped
    exact ⟨start, space, allocated, Nat.le_of_not_lt mapped,
      (Option.some.inj added).symm⟩

namespace Heap

/-- The heap with other bytes and another chain. -/
def put (h : Heap) (mem : Memory) (chain : List HeapRegion) : Heap :=
  { h with
    space := { h.space with mem := mem }
    chain := chain }

/-- Carry out one call.  A region has at least a page and a byte in a block,
and its size is a 64-bit number.  Only live allocations may be freed, moved or
stored into, and only ranges that hold no region may be given back. -/
def exec (h : Heap) : HeapCall → Option Heap
  | .add pages bsize =>
      if 0 < pages ∧ pages < 2 ^ 52 ∧ 0 < bsize then
        (h.space.heapAdd pages bsize).map fun new =>
          let range : Allocation := ⟨new.1, wrap (pages * pageSize)⟩
          { space := new.2.2
            ranges := range :: h.ranges
            chain := { range := range, bm := new.2.1, live := [] } :: h.chain }
      else none
  | .alloc size =>
      let new := HeapRegion.halloc size h.space.mem h.chain
      some (h.put new.2.1 new.2.2)
  | .free a =>
      if ∃ g ∈ h.chain, a ∈ g.live then
        let freed := hfree a.ptr h.space.mem (h.chain.map HeapRegion.bm)
        some (h.put freed.2.1
          ((HeapRegion.withRecords h.chain freed.2.2).map (HeapRegion.drop a)))
      else none
  | .realloc a size =>
      if ∃ g ∈ h.chain, a ∈ g.live then
        (hrealloc a.ptr size h.space.mem (h.chain.map HeapRegion.bm)).map
          fun new =>
            h.put new.2.2.1
              (HeapRegion.moved a new.2.1 size
                (HeapRegion.withRecords h.chain new.2.2.2))
      else none
  | .store address byte =>
      if ∃ g ∈ h.chain, (g.pool h.space.mem).Owned address then
        some (h.put (h.space.mem.write address byte) h.chain)
      else none
  | .valloc pages =>
      (h.space.valloc pages).map fun new =>
        { h with
          space := new.2
          ranges := if new.1 = 0 then h.ranges
            else ⟨new.1, wrap (pages * pageSize)⟩ :: h.ranges }
  | .vfree a =>
      if a ∈ h.ranges ∧ a ∉ h.chain.map HeapRegion.range then
        some
          { h with
            space := h.space.vfree a.ptr
            ranges := h.ranges.erase a }
      else none

end Heap

/-! ## The invariant -/

/-- The region lies behind the `heap_t` of its range and is an allocator. -/
structure HeapRegion.Sound (r : Region) (mem : Memory) (g : HeapRegion) :
    Prop where
  /-- The bitmap lies behind the `heap_t`. -/
  base_eq : r.base = g.range.ptr + heapHeader
  /-- The region ends with its range. -/
  end_eq : r.base + r.size = g.range.ptr + g.range.blocks pageSize * pageSize
  /-- The bitmap keeps the allocations apart. -/
  pool : Pool.Inv r (g.pool mem)

namespace Heap

/-- What holds of every heap in a run. -/
structure Inv (window : Region) (h : Heap) : Prop where
  /-- The VMM hands out pages. -/
  paged : window.bsize = pageSize
  /-- It keeps the ranges apart. -/
  vmm : Pool.Inv window ⟨h.space.mem, h.space.vi.bm, h.ranges⟩
  /-- The regions are in ranges that are in use. -/
  listed : ∀ g ∈ h.chain, g.range ∈ h.ranges
  /-- No two regions share a range. -/
  apart : h.chain.Pairwise fun g other =>
    Disjoint (g.range.range pageSize) (other.range.range pageSize)
  /-- Every region is an allocator. -/
  sound : ∀ g ∈ h.chain, ∃ r, g.Sound r h.space.mem

end Heap

namespace HeapRegion.Sound

variable {r other : Region} {mem after : Memory} {g : HeapRegion}

/-- The bytes of the region are those of the range. -/
theorem mem_range
    {address : Nat}
    (sound : g.Sound r mem)
    (inside : ¬ r.Beyond address) :
    address ∈ g.range.range pageSize := by
  have base_eq := sound.base_eq
  have end_eq := sound.end_eq
  rw [Region.Beyond] at inside
  rw [Allocation.range, Set.mem_Ico]
  omega

/-- The allocator does not notice changes of other bytes. -/
theorem of_agree
    (sound : g.Sound r mem)
    (agree : ∀ address, address ∈ g.range.range pageSize →
      after address = mem address) :
    g.Sound r after where
  base_eq := sound.base_eq
  end_eq := sound.end_eq
  pool := by
    apply sound.pool.of_agree
    intro address inside
    apply agree
    exact sound.mem_range fun beyond => inside beyond.bitmap

/-- Regions in different ranges do not overlap. -/
theorem beyond
    {other : HeapRegion} {address : Nat}
    (sound : g.Sound r mem)
    (separate : Disjoint (g.range.range pageSize)
      (other.range.range pageSize))
    (inside : address ∈ other.range.range pageSize) :
    r.Beyond address := by
  by_contra within
  exact Set.disjoint_left.mp separate (sound.mem_range within) inside

end HeapRegion.Sound

namespace Heap.Inv

variable {window : Region} {h : Heap}

/-- The ranges of the regions lie behind the bitmap of the VMM. -/
theorem beyondBitmap
    {a : Allocation} {address : Nat}
    (inv : Inv window h)
    (listed : a ∈ h.ranges)
    (inside : address ∈ a.range pageSize) :
    window.BeyondBitmap address := by
  obtain ⟨block, placed⟩ := inv.vmm.placed a listed
  exact Or.inr (le_trans placed.reserved_le_ptr (Set.mem_Ico.mp inside).1)

/-- One region works inside its range; the others and the VMM do not notice. -/
theorem update
    {before rest : List HeapRegion} {g next : HeapRegion} {r : Region}
    {after : Memory}
    (inv : Inv window h)
    (chain_eq : h.chain = before ++ g :: rest)
    (sound : g.Sound r h.space.mem)
    (range_eq : next.range = g.range)
    (nextPool : Pool.Inv r (next.pool after))
    (confined : ∀ address, r.Beyond address →
      after address = h.space.mem address) :
    Inv window (h.put after (before ++ next :: rest)) := by
  have member : g ∈ h.chain := by simp [chain_eq]
  have nextSound : next.Sound r after :=
    { base_eq := range_eq ▸ sound.base_eq
      end_eq := range_eq ▸ sound.end_eq
      pool := nextPool }
  have apart := inv.apart
  rw [chain_eq, List.pairwise_append, List.pairwise_cons] at apart
  obtain ⟨beforeApart, ⟨restApart, restPairwise⟩, acrossApart⟩ := apart
  -- A region of another range keeps its bytes.
  have keeps : ∀ other ∈ h.chain,
      Disjoint (g.range.range pageSize) (other.range.range pageSize) →
        ∃ r, other.Sound r after := by
    intro other otherMember separate
    obtain ⟨r', otherSound⟩ := inv.sound other otherMember
    refine ⟨r', otherSound.of_agree ?_⟩
    intro address inside
    exact confined address (sound.beyond separate inside)
  refine
    { paged := inv.paged
      vmm := ?_
      listed := ?_
      apart := ?_
      sound := ?_ }
  · refine inv.vmm.of_agree ?_
    intro address inside
    apply confined
    by_contra within
    exact inside (inv.beyondBitmap (inv.listed g member)
      (sound.mem_range within))
  · intro other otherMember
    rcases List.mem_append.mp otherMember with early | late
    · exact inv.listed other (by simp [chain_eq, early])
    · rcases List.mem_cons.mp late with rfl | late
      · exact range_eq ▸ inv.listed g member
      · exact inv.listed other (by simp [chain_eq, late])
  · change (before ++ next :: rest).Pairwise _
    rw [List.pairwise_append, List.pairwise_cons, range_eq]
    refine ⟨beforeApart, ⟨restApart, restPairwise⟩, ?_⟩
    intro early earlyMember late lateMember
    rcases List.mem_cons.mp lateMember with rfl | lateMember
    · rw [range_eq]
      exact acrossApart early earlyMember g List.mem_cons_self
    · exact acrossApart early earlyMember late
        (List.mem_cons_of_mem _ lateMember)
  · intro other otherMember
    rcases List.mem_append.mp otherMember with early | late
    · exact keeps other (by simp [chain_eq, early])
        (acrossApart other early g List.mem_cons_self).symm
    · rcases List.mem_cons.mp late with rfl | late
      · exact ⟨r, nextSound⟩
      · exact keeps other (by simp [chain_eq, late]) (restApart other late)

/-- Another chain in the same ranges. -/
theorem relist
    {chain : List HeapRegion}
    (inv : Inv window h)
    (ranges_eq : chain.map HeapRegion.range = h.chain.map HeapRegion.range)
    (sound : ∀ g ∈ chain, ∃ r, g.Sound r h.space.mem) :
    Inv window (h.put h.space.mem chain) where
  paged := inv.paged
  vmm := inv.vmm
  listed := by
    intro g member
    have range : g.range ∈ h.chain.map HeapRegion.range :=
      ranges_eq ▸ List.mem_map_of_mem member
    obtain ⟨old, oldMember, same⟩ := List.mem_map.mp range
    exact same ▸ inv.listed old oldMember
  apart := by
    have apart := inv.apart
    rw [← List.pairwise_map (f := HeapRegion.range) (R := fun left right =>
      Disjoint (left.range pageSize) (right.range pageSize))] at apart ⊢
    exact ranges_eq ▸ apart
  sound := sound

/-! ## Where a pointer belongs -/

/-- A pointer that is live in one region is outside the others. -/
theorem outside_other
    {first g : HeapRegion} {rest : List HeapRegion} {a : Allocation}
    (inv : Inv window h)
    (chain_eq : h.chain = first :: rest)
    (member : g ∈ rest)
    (live : a ∈ g.live) :
    first.bm.outside a.ptr := by
  obtain ⟨r, sound⟩ := inv.sound first (by simp [chain_eq])
  obtain ⟨r', otherSound⟩ := inv.sound g (by simp [chain_eq, member])
  obtain ⟨block, placed⟩ := otherSound.pool.placed a live
  have apart := inv.apart
  rw [chain_eq, List.pairwise_cons] at apart
  have inside : ¬ r'.Beyond a.ptr := by
    have lower := placed.reserved_le_ptr
    have upper := placed.ptr_lt
    rw [← placed.ptr_eq] at upper
    rintro (before | behind) <;> omega
  have beyond := sound.beyond (apart.1 g member) (otherSound.mem_range inside)
  have fits := r.fits
  have reserved := r.reserved_mul_le
  have size_eq : first.bm.size = r.size := sound.pool.size_eq
  have bsize_eq : first.bm.bsize = r.bsize := sound.pool.bsize_eq
  have bm_eq : first.bm.bm = r.base := sound.pool.bm_eq
  rw [Bitmap.outside, size_eq, bsize_eq, bm_eq, ← Region.reserved,
    wrap_of_lt fits, wrap_of_lt (by omega)]
  rcases beyond with before | behind
  · exact Or.inl (by omega)
  · exact Or.inr behind

end Heap.Inv

namespace Bitmap

variable {mem : Memory} {first : Bitmap} {rest : List Bitmap} {ptr size : Nat}

/-- `hfree` warns about a pointer that the first region does not know. -/
theorem hfree_of_outside (outside : first.outside ptr) :
    hfree ptr mem (first :: rest) = ([unknownPointer], mem, first :: rest) := by
  have refused : bmFree mem ptr first = (0, mem, first) := by
    rw [bmFree, if_pos outside]
  have loop : ∀ rounds, hfreeLoop ptr rounds mem first = (false, mem, first) := by
    intro rounds
    induction rounds with
    | zero => rfl
    | succ rounds inductionHypothesis =>
        simp only [hfreeLoop, refused]
        exact inductionHypothesis
  simp only [hfree, loop]
  rfl

/-- `hfree` stops when the first region takes the pointer. -/
theorem hfree_of_taken (taken : (bmFree mem ptr first).1 ≠ 0) :
    hfree ptr mem (first :: rest) =
      ([], (bmFree mem ptr first).2.1, (bmFree mem ptr first).2.2 :: rest) := by
  simp only [hfree, hfreeLoop, if_pos taken, if_true]

theorem hrealloc_of_outside (outside : first.outside ptr) :
    hrealloc ptr size mem (first :: rest) =
      some ([unknownPointer], 0, mem, first :: rest) := by
  have refused : bmRealloc mem ptr size first = some (0, mem, first) := by
    rw [bmRealloc, if_pos outside]
  have loop : ∀ rounds, hreallocLoop ptr size rounds mem first =
      some (0, mem, first) := by
    intro rounds
    induction rounds with
    | zero => rfl
    | succ rounds inductionHypothesis =>
        simp only [hreallocLoop, refused, Option.bind_some]
        exact inductionHypothesis
  simp only [hrealloc, loop]
  rfl

/-- `hrealloc` is `bm_realloc` when the first region gives a new place or
faults. -/
theorem hrealloc_of_taken
    (taken : ∀ new, bmRealloc mem ptr size first = some new → new.1 ≠ 0) :
    hrealloc ptr size mem (first :: rest) =
      (bmRealloc mem ptr size first).map fun new =>
        ([], new.1, new.2.1, new.2.2 :: rest) := by
  rw [hrealloc, hreallocLoop]
  cases result : bmRealloc mem ptr size first with
  | none => rfl
  | some new =>
      have notNull := taken new result
      simp only [Option.bind_some, if_pos notNull, Option.map_some]

namespace Pool.Inv

variable {r : Region} {s : Pool} {a : Allocation}

/-- `bm_free` takes a live pointer. -/
theorem bmFree_ne_zero
    (inv : Inv r s)
    (live : a ∈ s.live) :
    (bmFree s.mem a.ptr s.record).1 ≠ 0 := by
  obtain ⟨block, placed⟩ := inv.placed a live
  have inside : block < s.record.tblocks := inv.tblocks_eq ▸ placed.inside
  have positive := runLength_pos s.mem s.record inside
  have short := runLength_le s.mem s.record (getBm s.mem s.record.bm block)
    (s.record.tblocks - block) block inside.le
  have bounded := le_trans (Nat.le_add_left _ _) short
  have product := r.mul_bsize_le (bounded.trans inv.tblocks_eq.le)
  have fits := r.fits
  rw [inv.bmFree_live placed, inv.bsize_eq, wrap_of_lt (by omega)]
  exact (Nat.mul_pos positive r.bsize_pos).ne'

/-- `bm_realloc` of a live pointer gives a new place, or faults. -/
theorem bmRealloc_ne_zero
    {new : Nat × Memory × Bitmap} {size : Nat}
    (inv : Inv r s)
    (live : a ∈ s.live)
    (returned : bmRealloc s.mem a.ptr size s.record = some new) :
    new.1 ≠ 0 := by
  obtain ⟨block, placed⟩ := inv.placed a live
  obtain ⟨place, -, -, -, -, -, -, -, rfl⟩ :=
    inv.bmRealloc_spec placed returned
  exact r.ptr_ne_zero place

end Pool.Inv
end Bitmap

/-! ## Preservation -/

namespace HeapRegion

/-- `halloc` gives up without effect, or is `bm_alloc` of one region. -/
theorem halloc_cases
    (size : Nat) {mem : Memory} {chain : List HeapRegion}
    (sound : ∀ g ∈ chain, ∃ r, g.Sound r mem) :
    halloc size mem chain = (0, mem, chain) ∨
      ∃ before g rest, chain = before ++ g :: rest ∧
        (bmAlloc mem size g.bm).1 ≠ 0 ∧
        halloc size mem chain =
          ((bmAlloc mem size g.bm).1, (bmAlloc mem size g.bm).2.1,
            before ++
              { g with
                bm := (bmAlloc mem size g.bm).2.2
                live := ⟨(bmAlloc mem size g.bm).1, size⟩ :: g.live } ::
              rest) := by
  induction chain with
  | nil => exact Or.inl rfl
  | cons g rest inductionHypothesis =>
      by_cases taken : (bmAlloc mem size g.bm).1 ≠ 0
      · refine Or.inr ⟨[], g, rest, rfl, taken, ?_⟩
        rw [halloc, if_pos taken]
        rfl
      · -- A region that has no room stays as it is.
        obtain ⟨r, regionSound⟩ := sound g List.mem_cons_self
        have null : bmAlloc mem size g.bm = (0, mem, g.bm) :=
          regionSound.pool.bmAlloc_eq_null (not_not.mp taken)
        have step : halloc size mem (g :: rest) =
            ((halloc size mem rest).1, (halloc size mem rest).2.1,
              g :: (halloc size mem rest).2.2) := by
          rw [halloc, if_neg taken, null]
        have later := inductionHypothesis fun other member =>
          sound other (List.mem_cons_of_mem _ member)
        rcases later with unchanged | ⟨before, owner, behind, rfl, found, eq⟩
        · exact Or.inl (by rw [step, unchanged])
        · exact Or.inr ⟨g :: before, owner, behind, rfl, found,
            by rw [step, eq]; rfl⟩

theorem withRecords_map_bm (chain : List HeapRegion) :
    withRecords chain (chain.map bm) = chain := by
  induction chain with
  | nil => rfl
  | cons g rest inductionHypothesis =>
      exact congrArg (g :: ·) inductionHypothesis

theorem withRecords_cons
    (g : HeapRegion) (rest : List HeapRegion) (record : Bitmap) :
    withRecords (g :: rest) (record :: rest.map bm) =
      { g with bm := record } :: rest := by
  have same := withRecords_map_bm rest
  rw [withRecords] at same ⊢
  rw [List.zipWith_cons_cons, same]

/-- `hfree` of a pointer of the first region. -/
theorem Sound.hfree_eq
    {r : Region} {mem : Memory} {g : HeapRegion} {a : Allocation}
    (sound : g.Sound r mem)
    (live : a ∈ g.live)
    (rest : List Bitmap) :
    hfree a.ptr mem (g.bm :: rest) =
      ([], (bmFree mem a.ptr g.bm).2.1,
        (bmFree mem a.ptr g.bm).2.2 :: rest) :=
  hfree_of_taken (sound.pool.bmFree_ne_zero live)

/-- `hrealloc` of a pointer of the first region. -/
theorem Sound.hrealloc_eq
    {r : Region} {mem : Memory} {g : HeapRegion} {a : Allocation}
    (sound : g.Sound r mem)
    (live : a ∈ g.live)
    (size : Nat) (rest : List Bitmap) :
    hrealloc a.ptr size mem (g.bm :: rest) =
      (bmRealloc mem a.ptr size g.bm).map fun new =>
        ([], new.1, new.2.1, new.2.2 :: rest) :=
  hrealloc_of_taken fun _ found => sound.pool.bmRealloc_ne_zero live found

/-- Forgetting an allocation keeps the allocator. -/
theorem Sound.drop
    {r : Region} {mem : Memory} {g : HeapRegion}
    (sound : g.Sound r mem)
    (a : Allocation) :
    (g.drop a).Sound r mem where
  base_eq := sound.base_eq
  end_eq := sound.end_eq
  pool := sound.pool.of_keepsUsed rfl rfl rfl (Pool.KeepsUsed.refl mem) le_rfl
    List.erase_sublist

end HeapRegion

/-! ## New regions -/

section NewRegion

variable {start pages bsize : Nat}

/-- A region in a range of its own. -/
def newRegion (positive : 0 < bsize) (above : pageSize ≤ start)
    (some_pages : 0 < pages) (fits : start + pages * pageSize < 2 ^ 64) :
    Region where
  base := start + heapHeader
  size := pages * pageSize - heapHeader
  bsize := bsize
  bsize_pos := positive
  above_null := Nat.le_add_right_of_le above
  fits := by
    simp only [pageSize, heapHeader] at fits ⊢
    omega

variable
  (positive : 0 < bsize) (above : pageSize ≤ start) (some_pages : 0 < pages)
  (fits : start + pages * pageSize < 2 ^ 64)

/-- The allocator of a new region starts from whatever the range holds. -/
theorem initBitmap_newRegion (mem : Memory) :
    initBitmap mem
        { size := 0, bsize := 0, used := 0, ffa := 0
          bm := wrap (start + heapHeader) }
        (wrapSub (pages * pageSize) heapHeader) bsize =
      ((Pool.init (newRegion positive above some_pages fits) mem).mem,
        (Pool.init (newRegion positive above some_pages fits) mem).record) := by
  have header : heapHeader ≤ pages * pageSize := by
    simp only [heapHeader, pageSize]
    omega
  have small : pages * pageSize < 2 ^ 64 :=
    lt_of_le_of_lt (Nat.le_add_left _ _) fits
  rw [wrapSub_of_le small header, wrap_of_lt (by omega)]
  rfl

theorem sound_newRegion
    (blocks : Allocation.blocks ⟨start, pages * pageSize⟩ pageSize = pages)
    (mem : Memory) :
    HeapRegion.Sound (newRegion positive above some_pages fits)
      (Pool.init (newRegion positive above some_pages fits) mem).mem
      { range := ⟨start, pages * pageSize⟩
        bm := (Pool.init (newRegion positive above some_pages fits) mem).record
        live := [] } where
  base_eq := rfl
  end_eq := by
    rw [blocks]
    simp only [newRegion, pageSize, heapHeader]
    omega
  pool := Pool.init_inv _ mem

end NewRegion

namespace Heap.Inv

variable {window : Region} {h next : Heap}

/-- A live allocation is one of the first region, or outside of it. -/
theorem owner_cases
    {a : Allocation}
    (inv : Inv window h)
    (owned : ∃ g ∈ h.chain, a ∈ g.live) :
    ∃ first rest r, h.chain = first :: rest ∧ first.Sound r h.space.mem ∧
      (a ∈ first.live ∨ first.bm.outside a.ptr) := by
  obtain ⟨g, member, live⟩ := owned
  obtain ⟨first, rest, chain_eq⟩ :=
    List.exists_cons_of_ne_nil (List.ne_nil_of_mem member)
  obtain ⟨r, sound⟩ := inv.sound first (by simp [chain_eq])
  refine ⟨first, rest, r, chain_eq, sound, ?_⟩
  rw [chain_eq, List.mem_cons] at member
  cases member with
  | inl here => exact Or.inl (here ▸ live)
  | inr other => exact Or.inr (inv.outside_other chain_eq other live)

/-- The calls of the heap itself. -/
theorem alloc
    (inv : Inv window h)
    (size : Nat)
    (stepped : h.exec (.alloc size) = some next) :
    Inv window next := by
  obtain rfl := Option.some.inj stepped
  obtain unchanged | ⟨before, g, rest, chain_eq, taken, eq⟩ :=
    HeapRegion.halloc_cases size inv.sound
  · rw [unchanged]
    exact inv.relist rfl inv.sound
  · obtain ⟨r, sound⟩ := inv.sound g (by simp [chain_eq])
    rw [eq]
    refine inv.update chain_eq sound rfl ?_ ?_
    · have pool := sound.pool.alloc size rfl
      change Pool.Inv r ⟨_, _, if (bmAlloc h.space.mem size g.bm).1 = 0 then _
        else _⟩ at pool
      rw [if_neg taken] at pool
      exact pool
    · intro address beyond
      exact sound.pool.bmAlloc_confined size beyond.bitmap

theorem free
    {a : Allocation}
    (inv : Inv window h)
    (stepped : h.exec (.free a) = some next) :
    Inv window next := by
  rw [exec] at stepped
  split at stepped
  · rename_i owned
    obtain rfl := Option.some.inj stepped
    obtain ⟨first, rest, r, chain_eq, sound, owner⟩ := inv.owner_cases owned
    have others : ∀ other ∈ rest.map (HeapRegion.drop a),
        ∃ r, other.Sound r h.space.mem := by
      intro other dropped
      obtain ⟨old, oldMember, rfl⟩ := List.mem_map.mp dropped
      obtain ⟨r, oldSound⟩ := inv.sound old (by simp [chain_eq, oldMember])
      exact ⟨r, oldSound.drop a⟩
    have ranges : (rest.map (HeapRegion.drop a)).map HeapRegion.range =
        rest.map HeapRegion.range := by
      rw [List.map_map]
      rfl
    rw [chain_eq, List.map_cons]
    cases owner with
    | inl here =>
        rw [sound.hfree_eq here, bmFree_mem]
        simp only [HeapRegion.withRecords_cons, List.map_cons]
        refine inv.relist (by rw [chain_eq]; simp [HeapRegion.drop, ranges]) ?_
        intro other listed
        cases List.mem_cons.mp listed with
        | inr late => exact others other late
        | inl head =>
            rw [head]
            refine ⟨r, sound.base_eq, sound.end_eq, ?_⟩
            have pool : (first.pool h.space.mem).exec (.free a) =
                some ⟨(bmFree h.space.mem a.ptr first.bm).2.1,
                  (bmFree h.space.mem a.ptr first.bm).2.2,
                  first.live.erase a⟩ := by
              rw [Pool.exec]
              exact if_pos here
            rw [bmFree_mem] at pool
            exact sound.pool.free a pool
    | inr outside =>
        rw [hfree_of_outside outside]
        simp only [HeapRegion.withRecords_cons, List.map_cons]
        refine inv.relist (by rw [chain_eq]; simp [HeapRegion.drop, ranges]) ?_
        intro other listed
        cases List.mem_cons.mp listed with
        | inr late => exact others other late
        | inl head => exact head ▸ ⟨r, sound.drop a⟩
  · simp at stepped

theorem realloc
    {a : Allocation} {size : Nat}
    (inv : Inv window h)
    (stepped : h.exec (.realloc a size) = some next) :
    Inv window next := by
  rw [exec] at stepped
  split at stepped
  · rename_i owned
    obtain ⟨result, returned, rfl⟩ := Option.map_eq_some_iff.mp stepped
    obtain ⟨first, rest, r, chain_eq, sound, owner⟩ := inv.owner_cases owned
    rw [chain_eq, List.map_cons] at returned
    cases owner with
    | inl here =>
        rw [sound.hrealloc_eq here] at returned
        obtain ⟨new, found, rfl⟩ := Option.map_eq_some_iff.mp returned
        have pool : (first.pool h.space.mem).exec (.realloc a size) =
            some ⟨new.2.1, new.2.2, if new.1 = 0 then first.live
              else ⟨new.1, size⟩ :: first.live.erase a⟩ := by
          rw [Pool.exec]
          refine (if_pos here).trans ?_
          change (bmRealloc h.space.mem a.ptr size first.bm).map _ = _
          rw [found]
          rfl
        simp only [chain_eq, HeapRegion.withRecords_cons, HeapRegion.moved]
        refine inv.update (show h.chain = [] ++ first :: rest from chain_eq)
          sound rfl (sound.pool.realloc a size pool) ?_
        intro address beyond
        exact Pool.exec_confined sound.pool pool beyond
    | inr outside =>
        rw [hrealloc_of_outside outside] at returned
        obtain rfl := Option.some.inj returned
        simp only [chain_eq, HeapRegion.withRecords_cons, HeapRegion.moved,
          if_true]
        refine inv.relist (by rw [chain_eq]) ?_
        intro other listed
        exact inv.sound other (by rw [chain_eq]; exact listed)
  · simp at stepped

theorem store
    {address : Nat} {byte : BitVec 8}
    (inv : Inv window h)
    (stepped : h.exec (.store address byte) = some next) :
    Inv window next := by
  rw [exec] at stepped
  split at stepped
  · rename_i stored
    obtain ⟨g, member, owned⟩ := stored
    obtain rfl := Option.some.inj stepped
    obtain ⟨before, rest, chain_eq⟩ := List.append_of_mem member
    obtain ⟨r, sound⟩ := inv.sound g member
    have pool : (g.pool h.space.mem).exec (.store address byte) =
        some ⟨h.space.mem.write address byte, g.bm, g.live⟩ := by
      rw [Pool.exec]
      exact if_pos owned
    rw [chain_eq]
    refine inv.update chain_eq sound rfl (sound.pool.store address byte pool) ?_
    intro other beyond
    exact Pool.exec_confined sound.pool pool beyond
  · simp at stepped

/-- `valloc` writes the bitmap of the VMM, which no region sees. -/
theorem valloc
    {pages : Nat} {new : Nat × Space}
    (inv : Inv window h)
    (allocated : h.space.valloc pages = some new) :
    Inv window
      { h with
        space := new.2
        ranges := if new.1 = 0 then h.ranges
          else ⟨new.1, wrap (pages * pageSize)⟩ :: h.ranges } := by
  obtain ⟨-, rfl⟩ | ⟨-, machine, -, rfl⟩ := Space.valloc_cases allocated
  · exact inv
  · refine
      { paged := inv.paged
        vmm := inv.vmm.alloc (wrap (pages * pageSize)) rfl
        listed := ?_
        apart := inv.apart
        sound := ?_ }
    · intro g member
      have listed := inv.listed g member
      simp only
      split
      · exact listed
      · exact List.mem_cons_of_mem _ listed
    · intro g member
      obtain ⟨r, sound⟩ := inv.sound g member
      refine ⟨r, sound.of_agree ?_⟩
      intro address inside
      exact inv.vmm.bmAlloc_confined _
        (inv.beyondBitmap (inv.listed g member) inside)

theorem vfree
    {a : Allocation}
    (inv : Inv window h)
    (stepped : h.exec (.vfree a) = some next) :
    Inv window next := by
  rw [exec] at stepped
  split at stepped
  · rename_i free
    obtain rfl := Option.some.inj stepped
    have pool : Pool.exec ⟨h.space.mem, h.space.vi.bm, h.ranges⟩ (.free a) =
        some ⟨(bmFree h.space.mem a.ptr h.space.vi.bm).2.1,
          (bmFree h.space.mem a.ptr h.space.vi.bm).2.2,
          h.ranges.erase a⟩ := by
      rw [Pool.exec]
      exact if_pos free.1
    refine
      { paged := inv.paged
        vmm := inv.vmm.free a pool
        listed := ?_
        apart := inv.apart
        sound := ?_ }
    · intro g member
      refine (List.mem_erase_of_ne ?_).mpr (inv.listed g member)
      intro same
      exact free.2 (same ▸ List.mem_map_of_mem member)
    · intro g member
      obtain ⟨r, sound⟩ := inv.sound g member
      refine ⟨r, sound.of_agree ?_⟩
      intro address _
      exact congrFun (bmFree_mem h.space.mem a.ptr h.space.vi.bm) address
  · simp at stepped

/-- An allocator in a range that is listed and that no region uses is one more
region. -/
theorem attach
    {g : HeapRegion} {r : Region} {mem : Memory}
    (inv : Inv window h)
    (listed : g.range ∈ h.ranges)
    (apart : ∀ other ∈ h.chain,
      Disjoint (g.range.range pageSize) (other.range.range pageSize))
    (sound : g.Sound r mem)
    (beyond : ∀ address, address ∉ g.range.range pageSize →
      mem address = h.space.mem address) :
    Inv window (h.put mem (g :: h.chain)) := by
  refine
    { paged := inv.paged
      vmm := ?_
      listed := ?_
      apart := List.pairwise_cons.mpr ⟨apart, inv.apart⟩
      sound := ?_ }
  · refine inv.vmm.of_agree fun address inside => beyond address ?_
    exact fun within => inside (inv.beyondBitmap listed within)
  · intro other member
    cases List.mem_cons.mp member with
    | inl new => exact new ▸ listed
    | inr old => exact inv.listed other old
  · intro other member
    cases List.mem_cons.mp member with
    | inl new => exact ⟨r, new ▸ sound⟩
    | inr old =>
        obtain ⟨r', kept⟩ := inv.sound other old
        refine ⟨r', kept.of_agree fun address inside => beyond address ?_⟩
        exact Set.disjoint_right.mp (apart other old) inside

/-- `heap_add` puts an allocator into a range that nobody else uses. -/
theorem add
    {pages bsize : Nat}
    (inv : Inv window h)
    (stepped : h.exec (.add pages bsize) = some next) :
    Inv window next := by
  rw [exec] at stepped
  split at stepped
  · rename_i wellFormed
    obtain ⟨some_pages, small, positive⟩ := wellFormed
    obtain ⟨result, added, rfl⟩ := Option.map_eq_some_iff.mp stepped
    obtain ⟨start, space, allocated, above, rfl⟩ := Space.heapAdd_cases added
    have notNull : start ≠ 0 := by
      simp only [pageSize] at above
      omega
    have bytes : wrap (pages * pageSize) = pages * pageSize :=
      wrap_of_lt (by simp only [pageSize]; omega)
    have blocks : Allocation.blocks ⟨start, pages * pageSize⟩ pageSize =
        pages := by
      simp only [Allocation.blocks, divCeil, wrap, pageSize]
      omega
    have taken := inv.valloc allocated
    simp only [if_neg notNull, bytes] at taken
    obtain ⟨block, placed⟩ := taken.vmm.placed _ List.mem_cons_self
    have fits : start + pages * pageSize < 2 ^ 64 := by
      have inside := placed.end_le_region
      rw [inv.paged, blocks] at inside
      exact lt_of_le_of_lt inside window.fits
    have newSound := sound_newRegion positive above some_pages fits blocks
      space.mem
    have separate := taken.vmm.separate
    rw [List.pairwise_cons, inv.paged] at separate
    simp only [bytes]
    rw [initBitmap_newRegion positive above some_pages fits]
    refine taken.attach List.mem_cons_self (fun other member =>
      separate.1 other.range (inv.listed other member)) newSound ?_
    intro address outside
    apply Pool.init_confined
    by_contra inside
    exact outside (newSound.mem_range fun far => inside far.bitmap)
  · simp at stepped

theorem exec
    {call : HeapCall}
    (inv : Inv window h)
    (stepped : h.exec call = some next) :
    Inv window next := by
  cases call with
  | add pages bsize => exact inv.add stepped
  | alloc size => exact inv.alloc size stepped
  | free a => exact inv.free stepped
  | realloc a size => exact inv.realloc stepped
  | store address byte => exact inv.store stepped
  | valloc pages =>
      obtain ⟨new, allocated, rfl⟩ := Option.map_eq_some_iff.mp stepped
      exact inv.valloc allocated
  | vfree a => exact inv.vfree stepped

theorem run
    {last : Heap} {calls : List HeapCall}
    (inv : Inv window h)
    (ran : Runs.run Heap.exec h calls = some last) :
    Inv window last :=
  Runs.run_invariant (Inv window) (fun _ _ _ inv stepped => inv.exec stepped)
    inv ran

end Heap.Inv
end PivotOs
