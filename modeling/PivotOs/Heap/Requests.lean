import PivotOs.Bitmap.Complete
import PivotOs.Bitmap.Reuse
import PivotOs.Heap.Owner

/-!
# Requests at the limits

What becomes of a request that no region has room for, and of one so large that
its block count wraps.  `bm_realloc` does not look at the pointer it gets from
`bm_alloc`, so a request without room ends in a copy through the null pointer.
The sum in `DIV_CEIL` and the product in `valloc` are taken in 64 bits, so the
largest requests are granted with too few blocks.
-/

namespace PivotOs

open Bitmap

namespace Bitmap

/-! ## Blocks taken by a request -/

/-- The block of the region was free and is used now. -/
def Takes (b : Bitmap) (before after : Memory) (block : Nat) : Prop :=
  block < b.tblocks ∧ Free before b.bm block ∧ ¬ Free after b.bm block

/-- Every byte of `[ptr, ptr + size)` lies in a block of the region that was
taken. -/
def Covers (b : Bitmap) (before after : Memory) (ptr size : Nat) : Prop :=
  ∀ offset, offset < size →
    b.bm ≤ ptr + offset ∧
      b.Takes before after ((ptr + offset - b.bm) / b.bsize)

/-- The `pages` blocks from `ptr` on were taken. -/
def TakesRun (b : Bitmap) (before after : Memory) (ptr pages : Nat) : Prop :=
  ∀ i, i < pages → b.Takes before after ((ptr - b.bm) / b.bsize + i)

end Bitmap

namespace Bitmap.Pool

variable {r : Region} {s : Pool} {size : Nat}

/-- A granted request takes the blocks of one run and no others. -/
theorem Inv.takes_iff
    (inv : Inv r s)
    (granted : (bmAlloc s.mem size s.record).1 ≠ 0) :
    ∃ block, block < r.tblocks ∧
      (bmAlloc s.mem size s.record).1 = r.base + block * r.bsize ∧
      ∀ i, s.record.Takes s.mem (bmAlloc s.mem size s.record).2.1 (block + i) ↔
        i < divCeil size r.bsize := by
  obtain null | ⟨block, first, eq⟩ := Bitmap.bmAlloc_cases s.mem size s.record
  · rw [null] at granted
    exact absurd rfl granted
  rw [inv.bsize_eq] at first
  have inside : block < r.tblocks := inv.tblocks_eq ▸ first.fits.1.1
  have run : ∀ i, i < divCeil size r.bsize →
      block + i < r.tblocks ∧ Free s.mem r.base (block + i) := by
    intro i below
    have fits := first.fits.2 i below
    rwa [inv.tblocks_eq, inv.bm_eq] at fits
  have endLe : block + divCeil size r.bsize ≤ r.tblocks :=
    first.end_le.trans inv.tblocks_eq.le
  have product := r.mul_bsize_le inside.le
  have fits := r.fits
  refine ⟨block, inside, ?_, ?_⟩
  · rw [eq, inv.bm_eq, inv.bsize_eq, wrap_of_lt (by omega)]
  intro i
  rw [Takes, inv.tblocks_eq, inv.bm_eq, eq, inv.bsize_eq, inv.bm_eq]
  constructor
  · rintro ⟨below, free, used⟩
    by_contra behind
    apply used
    rwa [Free, getBm_setRun_outside _ _ (r.row_fits endLe)
      (r.row_fits below.le) (Or.inr (by omega))]
  · intro below
    refine ⟨(run i below).1, (run i below).2, ?_⟩
    intro free
    rw [Free, getBm_setRun_inside _ _ (r.row_fits endLe) below,
      BitVec.or_eq_zero_iff] at free
    exact bmUniqueId_visible _ _ _ free.2

/-- Rounding up to blocks covers the request unless the sum wraps. -/
theorem le_divCeil_mul_iff
    {bsize : Nat}
    (positive : 0 < bsize)
    (bounded : bsize ≤ 2 ^ 64)
    (small : size < 2 ^ 64) :
    size ≤ divCeil size bsize * bsize ↔ size + (bsize - 1) < 2 ^ 64 := by
  by_cases fits : size + (bsize - 1) < 2 ^ 64
  · refine iff_of_true ?_ fits
    have division := Nat.div_add_mod (size + (bsize - 1)) bsize
    have remainder := Nat.mod_lt (size + (bsize - 1)) positive
    rw [Nat.mul_comm] at division
    rw [divCeil, wrap_of_lt fits]
    omega
  · -- The sum wraps to less than a block.
    refine iff_of_false ?_ fits
    have wrapped : wrap (size + (bsize - 1)) < bsize := by
      unfold wrap
      omega
    rw [divCeil, Nat.div_eq_of_lt wrapped]
    omega

/-- A granted request is covered by its blocks unless the sum in `DIV_CEIL`
wraps. -/
theorem Inv.covers_iff
    (inv : Inv r s)
    (small : size < 2 ^ 64)
    (granted : (bmAlloc s.mem size s.record).1 ≠ 0) :
    s.record.Covers s.mem (bmAlloc s.mem size s.record).2.1
        (bmAlloc s.mem size s.record).1 size ↔
      size + (s.record.bsize - 1) < 2 ^ 64 := by
  obtain ⟨block, inside, ptr_eq, takes⟩ := inv.takes_iff granted
  have positive := r.bsize_pos
  have fits := r.fits
  have one := r.mul_bsize_le (Nat.one_le_of_lt inside)
  have blockOf : ∀ offset,
      (r.base + block * r.bsize + offset - r.base) / r.bsize =
        block + offset / r.bsize := by
    intro offset
    rw [show r.base + block * r.bsize + offset - r.base =
      offset + block * r.bsize by omega, Nat.add_mul_div_right _ _ positive,
      Nat.add_comm]
  rw [inv.bsize_eq, ← le_divCeil_mul_iff positive (by omega) small]
  simp only [Covers, ptr_eq, inv.bm_eq, inv.bsize_eq, blockOf, takes]
  constructor
  · intro covered
    by_contra short
    have last := (covered _ (Nat.lt_of_not_le short)).2
    rw [Nat.mul_div_cancel _ positive] at last
    exact lt_irrefl _ last
  · intro enough offset below
    refine ⟨by omega, ?_⟩
    rw [Nat.div_lt_iff_lt_mul positive]
    exact lt_of_lt_of_le below enough

end Bitmap.Pool

namespace HeapRegion

/-- What `halloc` grants is granted by the first region with room. -/
theorem halloc_granted
    {size : Nat} {mem : Memory} {chain : List HeapRegion}
    (quiet : ∀ g ∈ chain, (bmAlloc mem size g.bm).1 = 0 →
      bmAlloc mem size g.bm = (0, mem, g.bm))
    (granted : (Bitmap.halloc size mem (chain.map bm)).1 ≠ 0) :
    ∃ before g after, chain = before ++ g :: after ∧
      (∀ other ∈ before, (bmAlloc mem size other.bm).1 = 0) ∧
      (bmAlloc mem size g.bm).1 ≠ 0 ∧
      Bitmap.halloc size mem (chain.map bm) =
        ((bmAlloc mem size g.bm).1, (bmAlloc mem size g.bm).2.1,
          before.map bm ++ (bmAlloc mem size g.bm).2.2 :: after.map bm) := by
  induction chain with
  | nil => exact absurd rfl granted
  | cons g rest inductionHypothesis =>
      by_cases room : (bmAlloc mem size g.bm).1 ≠ 0
      · refine ⟨[], g, rest, rfl, by simp, room, ?_⟩
        rw [List.map_cons, Bitmap.halloc, if_pos room]
        rfl
      · have null : (bmAlloc mem size g.bm).1 = 0 := not_not.mp room
        have step : Bitmap.halloc size mem ((g :: rest).map bm) =
            ((Bitmap.halloc size mem (rest.map bm)).1,
              (Bitmap.halloc size mem (rest.map bm)).2.1,
              g.bm :: (Bitmap.halloc size mem (rest.map bm)).2.2) := by
          rw [List.map_cons, Bitmap.halloc, if_neg room,
            quiet g List.mem_cons_self null]
        rw [step] at granted ⊢
        obtain ⟨before, owner, after, rfl, refused, taken, eq⟩ :=
          inductionHypothesis
            (fun other member => quiet other (List.mem_cons_of_mem _ member))
            granted
        refine ⟨g :: before, owner, after, rfl, ?_, taken, by rw [eq]; rfl⟩
        intro other member
        rcases List.mem_cons.mp member with rfl | early
        · exact null
        · exact refused other early

end HeapRegion

/-- A range of `pages` pages is taken as a whole unless its size in bytes
wraps. -/
theorem Bitmap.Pool.Inv.takesRun_iff
    {r : Region} {s : Pool} {pages : Nat}
    (inv : Pool.Inv r s)
    (paged : r.bsize = pageSize)
    (granted : (bmAlloc s.mem (wrap (pages * pageSize)) s.record).1 ≠ 0) :
    s.record.TakesRun s.mem
        (bmAlloc s.mem (wrap (pages * pageSize)) s.record).2.1
        (bmAlloc s.mem (wrap (pages * pageSize)) s.record).1 pages ↔
      pages < 2 ^ 52 := by
  obtain ⟨block, -, ptr_eq, takes⟩ := inv.takes_iff granted
  have blocks : divCeil (wrap (pages * pageSize)) r.bsize = pages % 2 ^ 52 := by
    simp only [paged, divCeil, wrap, pageSize]
    omega
  have start : (r.base + block * r.bsize - r.base) / r.bsize = block := by
    rw [Nat.add_sub_cancel_left, Nat.mul_div_cancel _ r.bsize_pos]
  simp only [TakesRun, ptr_eq, inv.bm_eq, inv.bsize_eq, start, takes, blocks]
  constructor
  · intro all
    by_contra large
    have last := all (pages - 1) (by omega)
    omega
  · intro few i below
    omega

namespace Heap

/-- What is granted is covered, except for requests whose size wraps: for
`bm_alloc` in every reachable pool, for `halloc` in every run of a heap, with
the block size of the first region that has room, and for `valloc` in every
reachable window. -/
theorem requests_covered_iff
    (size pages : Nat)
    (small : size < 2 ^ 64 ∧ pages < 2 ^ 64) :
    (∀ (r : Region) (prior : Memory) (s : Pool),
      Pool.Reachable r prior s →
      (bmAlloc s.mem size s.record).1 ≠ 0 →
        (s.record.Covers s.mem (bmAlloc s.mem size s.record).2.1
            (bmAlloc s.mem size s.record).1 size ↔
          size + (s.record.bsize - 1) < 2 ^ 64)) ∧
    (∀ (level : VmmLevel) (maxPages : Nat),
      level.base + maxPages * pageSize < 2 ^ 64 →
      ∀ (start first : Space) (calls : List HeapCall) (last : Heap),
      start.initVmm level maxPages = some first →
      Runs.run exec (onVmm first) calls = some last →
      let result := halloc size last.space.mem (last.chain.map HeapRegion.bm)
      result.1 ≠ 0 →
        ∃ before g after, last.chain = before ++ g :: after ∧
          (∀ other ∈ before, (bmAlloc last.space.mem size other.bm).1 = 0) ∧
          (bmAlloc last.space.mem size g.bm).1 ≠ 0 ∧
          (g.bm.Covers last.space.mem result.2.1 result.1 size ↔
            size + (g.bm.bsize - 1) < 2 ^ 64)) ∧
    (∀ (level : VmmLevel) (maxPages : Nat)
        (fits : level.base + maxPages * pageSize < 2 ^ 64)
        (prior : Memory) (live : List Allocation) (s next : Space)
        (address : Nat),
      Pool.Reachable (level.window maxPages fits) prior
        ⟨s.mem, s.vi.bm, live⟩ →
      s.valloc pages = some (address, next) → address ≠ 0 →
        (s.vi.bm.TakesRun s.mem next.mem address pages ↔ pages < 2 ^ 52)) := by
  refine ⟨?_, ?_, ?_⟩
  · intro r prior s reachable granted
    exact reachable.inv.covers_iff small.1 granted
  · intro level maxPages fits start first calls last initialised ran result
      granted
    have inv := (onVmm_inv fits initialised).run ran
    have quiet : ∀ g ∈ last.chain, (bmAlloc last.space.mem size g.bm).1 = 0 →
        bmAlloc last.space.mem size g.bm = (0, last.space.mem, g.bm) := by
      intro g member null
      obtain ⟨r, sound⟩ := inv.sound g member
      exact sound.pool.bmAlloc_eq_null null
    obtain ⟨before, g, after, chain_eq, refused, taken, eq⟩ :=
      HeapRegion.halloc_granted quiet granted
    obtain ⟨r, sound⟩ := inv.sound g (by simp [chain_eq])
    refine ⟨before, g, after, chain_eq, refused, taken, ?_⟩
    simp only [result, eq]
    exact sound.pool.covers_iff small.1 taken
  · intro level maxPages fits prior live s next address reachable taken notNull
    have some_pages : pages ≠ 0 := by
      rintro rfl
      rw [Space.valloc, if_pos rfl] at taken
      obtain ⟨null, -⟩ := Prod.mk.inj (Option.some.inj taken)
      exact notNull null.symm
    obtain ⟨machine, -, rfl, rfl⟩ := Space.valloc_eq_some some_pages taken
    exact reachable.inv.takesRun_iff rfl notNull

theorem requests_covered_iff_sample :
    ((Pool.init Pool.sampleRegion fun _ => 0#8).record.Covers
        (Pool.init Pool.sampleRegion fun _ => 0#8).mem
        (bmAlloc (Pool.init Pool.sampleRegion fun _ => 0#8).mem 20
          (Pool.init Pool.sampleRegion fun _ => 0#8).record).2.1
        (bmAlloc (Pool.init Pool.sampleRegion fun _ => 0#8).mem 20
          (Pool.init Pool.sampleRegion fun _ => 0#8).record).1 20) ∧
    (∃ first last, Client.sampleSpace.initVmm .supervisor 8 = some first ∧
      Runs.run exec (onVmm first) sampleCalls = some last ∧
      ∃ g ∈ last.chain,
        (g.bm.Covers last.space.mem
            (halloc 100 last.space.mem (last.chain.map HeapRegion.bm)).2.1
            (halloc 100 last.space.mem (last.chain.map HeapRegion.bm)).1 100 ↔
          100 + (g.bm.bsize - 1) < 2 ^ 64)) ∧
    ∃ first next, Client.sampleSpace.initVmm .supervisor 8 = some first ∧
      first.valloc 2 = some (0xFFFF800000001000, next) ∧
      first.vi.bm.TakesRun first.mem next.mem 0xFFFF800000001000 2 := by
  refine ⟨?_, ?_, ?_⟩
  · exact ((requests_covered_iff 20 2 (by decide)).1 Pool.sampleRegion
      (fun _ => 0#8) _ ⟨[], rfl⟩ (by decide)).mpr (by decide)
  · have observed : ((Client.sampleSpace.initVmm .supervisor 8).bind fun first =>
        Runs.run exec (onVmm first) sampleCalls).map (fun last =>
          (halloc 100 last.space.mem (last.chain.map HeapRegion.bm)).1) =
        some 0xFFFF8000000010E0 := by decide +kernel
    obtain ⟨last, both, granted⟩ := Option.map_eq_some_iff.mp observed
    obtain ⟨first, initialised, ran⟩ := Option.bind_eq_some_iff.mp both
    obtain ⟨before, g, after, chain_eq, -, -, covered⟩ :=
      (requests_covered_iff 100 2 (by decide)).2.1 .supervisor 8 (by decide) _
        first sampleCalls last initialised ran (by rw [granted]; decide)
    exact ⟨first, last, initialised, ran, g, by simp [chain_eq], covered⟩
  · obtain ⟨first, initialised, -, ⟨address, next⟩, taken, rfl, -⟩ :=
      Space.sample_valloc
    refine ⟨first, next, initialised, taken, ?_⟩
    exact ((requests_covered_iff 100 2 (by decide)).2.2 .supervisor 8 (by decide)
      _ [] first next _ (Space.initVmm_reachable (by decide) initialised) taken
      (by decide)).mpr (by decide)

/-- The largest request is granted with no blocks at all. -/
theorem largest_request_not_covered :
    ¬ ((∀ (r : Region) (prior : Memory) (s : Pool) (size : Nat),
        Pool.Reachable r prior s → size < 2 ^ 64 →
        (bmAlloc s.mem size s.record).1 ≠ 0 →
          s.record.Covers s.mem (bmAlloc s.mem size s.record).2.1
            (bmAlloc s.mem size s.record).1 size) ∧
      ∀ (level : VmmLevel) (maxPages : Nat)
        (fits : level.base + maxPages * pageSize < 2 ^ 64)
        (prior : Memory) (live : List Allocation) (s next : Space)
        (pages address : Nat),
      Pool.Reachable (level.window maxPages fits) prior
        ⟨s.mem, s.vi.bm, live⟩ → pages < 2 ^ 64 →
      s.valloc pages = some (address, next) → address ≠ 0 →
        s.vi.bm.TakesRun s.mem next.mem address pages) := by
  rintro ⟨claim, -⟩
  have covered := claim Pool.sampleRegion (fun _ => 0#8)
    (Pool.init Pool.sampleRegion fun _ => 0#8) (2 ^ 64 - 1) ⟨[], rfl⟩ (by decide)
    (by decide)
  have first := (covered 0 (by decide)).2.2.2
  exact first (by decide)

/-! ## Requests without room -/

/-- `hrealloc` of a pointer of the first region returns null, and the blocks of
the allocation are still used. -/
def HreallocRefuses (r : Region) (s : Pool) (a : Allocation) (size : Nat)
    (rest : List Bitmap) : Prop :=
  ∃ messages mem chain,
    hrealloc a.ptr size s.mem (s.record :: rest) =
      some (messages, 0, mem, chain) ∧
    ∀ block, Pool.InAllocation r a block → ¬ Free mem r.base block

/-- Without room, neither `bm_realloc` nor `hrealloc` returns: both copy
through the null pointer. -/
theorem never_refuses
    (r : Region) (prior : Memory) (s : Pool) (a : Allocation) (size : Nat)
    (reachable : Pool.Reachable r prior s)
    (member : a ∈ s.live)
    (noRoom : (bmAlloc s.mem size s.record).1 = 0) :
    bmRealloc s.mem a.ptr size s.record ≠ some (0, s.mem, s.record) ∧
      ∀ rest, ¬ HreallocRefuses r s a size rest := by
  have inv := reachable.inv
  obtain ⟨block, placed⟩ := inv.placed a member
  have faults : bmRealloc s.mem a.ptr size s.record = none := by
    obtain ⟨-, none⟩ | ⟨block, mem, record, eq, -⟩ :=
      inv.bmRealloc_cases placed size
    · exact none
    · rw [eq] at noRoom
      exact absurd noRoom (r.ptr_ne_zero block)
  constructor
  · rw [faults]
    simp
  · rintro rest ⟨messages, mem, chain, returned, -⟩
    rw [hrealloc, hreallocLoop, faults] at returned
    simp at returned

/-- A request for more than the whole region. -/
theorem no_room_reachable :
    ∃ s, Pool.Reachable Pool.sampleRegion (fun _ => 0#8) s ∧
      ⟨4104, 20⟩ ∈ s.live ∧ (bmAlloc s.mem 200 s.record).1 = 0 ∧
      bmRealloc s.mem 4104 200 s.record = none := by
  have ran : (Runs.run Pool.exec (Pool.init Pool.sampleRegion fun _ => 0#8)
      [.alloc 20]).map (fun s => (s.live, (bmAlloc s.mem 200 s.record).1,
        (bmRealloc s.mem 4104 200 s.record).isSome)) =
      some ([⟨4104, 20⟩], 0, false) := by decide +kernel
  obtain ⟨s, eq, observed⟩ := Option.map_eq_some_iff.mp ran
  obtain ⟨live, null, faults⟩ := Prod.mk.inj observed |>.imp_right Prod.mk.inj
  refine ⟨s, ⟨_, eq⟩, by simp [live], null, ?_⟩
  exact Option.isNone_iff_eq_none.mp (by simpa using faults)

theorem never_refuses_sample :
    ∃ s, Pool.Reachable Pool.sampleRegion (fun _ => 0#8) s ∧
      ⟨4104, 20⟩ ∈ s.live ∧ (bmAlloc s.mem 200 s.record).1 = 0 ∧
      bmRealloc s.mem 4104 200 s.record ≠ some (0, s.mem, s.record) := by
  obtain ⟨s, reachable, member, null, -⟩ := no_room_reachable
  exact ⟨s, reachable, member, null,
    (never_refuses _ _ s _ 200 reachable member null).1⟩

/-- A failing `bm_realloc` is not harmless. -/
theorem failing_realloc_faults :
    ¬ ∀ (r : Region) (prior : Memory) (s : Pool) (a : Allocation) (size : Nat),
      Pool.Reachable r prior s → a ∈ s.live →
      (bmAlloc s.mem size s.record).1 = 0 →
        bmRealloc s.mem a.ptr size s.record = some (0, s.mem, s.record) ∧
          ∀ rest, HreallocRefuses r s a size rest := by
  intro claim
  obtain ⟨s, reachable, member, null, faults⟩ := no_room_reachable
  have returned := (claim Pool.sampleRegion _ s _ 200 reachable member null).1
  rw [faults] at returned
  simp at returned

end Heap
end PivotOs
