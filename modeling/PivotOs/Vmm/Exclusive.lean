import PivotOs.Vmm.Frames
import PivotOs.Bitmap.Reuse
import PivotOs.Library.Runs
import Mathlib.Data.List.Pairwise

/-!
# Live ranges have frames of their own

A client of the kernel's VMM takes ranges with `valloc` and gives them back
with `vfree`.  Three layers have to agree: the block bitmap keeps the ranges
apart, the frame bitmap keeps the frames apart, and the page-table walk, which
takes frames itself, maps its tables in the lower half only.
-/

namespace PivotOs

open Paging Bitmap

/-- The pages that the kernel's VMM hands out: the window starts at
`HIGHER_HALF_OFFSET` and ends below the top of the address space. -/
def kernelWindow (maxPages : Nat) (fits : maxPages < 2 ^ 35) : Region where
  base := VmmLevel.supervisor.base
  size := maxPages * pageSize
  bsize := pageSize
  bsize_pos := pageSize_pos
  above_null := by decide
  fits := by
    change 0xFFFF800000000000 + maxPages * 4096 < 2 ^ 64
    omega

theorem kernelWindow_tblocks {maxPages : Nat} (fits : maxPages < 2 ^ 35) :
    (kernelWindow maxPages fits).tblocks = maxPages :=
  Nat.mul_div_cancel maxPages (by decide)

/-- The `i`-th page behind a block of the window. -/
theorem pageOf_kernelWindow
    {block i : Nat}
    (inside : block + i < 2 ^ 35) :
    pageOf (Pmm.pageAddress (BitVec.ofNat 64
        (VmmLevel.supervisor.base + block * pageSize)) i) =
      2 ^ 35 + (block + i) := by
  change pageOf (BitVec.ofNat 64 (0xFFFF800000000000 + block * 4096) +
    BitVec.ofNat 64 (4096 * i)) = _
  rw [pageOf, BitVec.toNat_add, BitVec.toNat_ofNat, BitVec.toNat_ofNat,
    pageSize]
  omega

/-- The `i`-th page from address 0. -/
theorem pageOf_fromNull {i : Nat} (small : i < 2 ^ 35) :
    pageOf (Pmm.pageAddress (BitVec.ofNat 64 0) i) = i := by
  change pageOf (BitVec.ofNat 64 0 + BitVec.ofNat 64 (4096 * i)) = _
  rw [pageOf, BitVec.toNat_add, BitVec.toNat_ofNat, BitVec.toNat_ofNat,
    pageSize]
  omega

theorem divCeil_pages {pages : Nat} (small : pages ≤ 2 ^ 22) :
    wrap (pages * pageSize) = pages * pageSize ∧
      divCeil (wrap (pages * pageSize)) pageSize = pages := by
  have exact : wrap (pages * pageSize) = pages * pageSize := by
    unfold wrap pageSize
    omega
  refine ⟨exact, ?_⟩
  rw [exact]
  unfold divCeil wrap pageSize
  omega

/-- A VMM and the ranges in its callers' hands. -/
structure Client where
  /-- The machine and the VMM. -/
  space : Space
  /-- Ranges returned by `valloc` and not yet given to `vfree`. -/
  live : List Allocation

/-- What a caller may do. -/
inductive VmmCall
  | valloc (pages : Nat)
  | vfree (allocation : Allocation)

namespace Client

/-- Carry out one call.  Only live ranges may be freed. -/
def exec (c : Client) : VmmCall → Option Client
  | .valloc pages =>
      (c.space.valloc pages).map fun result =>
        { space := result.2
          live := if result.1 = 0 then c.live
            else ⟨result.1, wrap (pages * pageSize)⟩ :: c.live }
  | .vfree a =>
      if a ∈ c.live then
        some
          { space := c.space.vfree a.ptr
            live := c.live.erase a }
      else none

/-- The address of the `i`-th page of a range. -/
def pageAt (a : Allocation) (i : Nat) : Word :=
  Pmm.pageAddress (BitVec.ofNat 64 a.ptr) i

/-- The pages of the live ranges. -/
def livePages (live : List Allocation) : Set Nat :=
  {page | ∃ a ∈ live, ∃ i, i < a.blocks pageSize ∧ page = pageOf (pageAt a i)}

/-- The bitmap side of a client. -/
def pool (c : Client) : Pool where
  mem := c.space.mem
  record := c.space.vi.bm
  live := c.live

/-- What holds of every client in a run. -/
structure Inv (maxPages : Nat) (fits : maxPages < 2 ^ 35) (root : Word)
    (c : Client) : Prop where
  /-- The bitmap keeps the ranges apart. -/
  pool : Pool.Inv (kernelWindow maxPages fits) c.pool
  /-- The root is the one `init_vmm` was given. -/
  p4Tbl_eq : c.space.vi.p4Tbl = root
  /-- The flags are those of the kernel. -/
  flags_eq : c.space.vi.flags = kernelPtEntry
  /-- Live ranges are not empty. -/
  blocks_pos : ∀ a ∈ c.live, 0 < a.blocks pageSize
  /-- Their pages have frames of their own. -/
  owns : c.space.machine.Owns root (livePages c.live)

variable {maxPages : Nat} {fits : maxPages < 2 ^ 35} {root : Word}
variable {c next : Client}

/-- A placed range lies in the window page by page. -/
theorem pageOf_pageAt
    {mem : Memory} {a : Allocation} {block i : Nat}
    (placed : Pool.Placed (kernelWindow maxPages fits) mem a block)
    (below : i < a.blocks pageSize) :
    pageOf (pageAt a i) = 2 ^ 35 + (block + i) := by
  have last : block + a.blocks pageSize ≤ maxPages := by
    rw [← kernelWindow_tblocks fits]
    exact placed.end_le
  have start : a.ptr = VmmLevel.supervisor.base + block * pageSize :=
    placed.ptr_eq
  rw [pageAt, start]
  exact pageOf_kernelWindow (by omega)

/-- Two pages of live ranges are the same only as the same page of the same
range. -/
theorem Inv.pageAt_injective
    (inv : Inv maxPages fits root c)
    {a b : Allocation} {i j : Nat}
    (aLive : a ∈ c.live)
    (bLive : b ∈ c.live)
    (iBelow : i < a.blocks pageSize)
    (jBelow : j < b.blocks pageSize)
    (same : pageOf (pageAt a i) = pageOf (pageAt b j)) :
    a = b ∧ i = j := by
  obtain ⟨block, placed⟩ := inv.pool.placed a aLive
  obtain ⟨other, otherPlaced⟩ := inv.pool.placed b bLive
  rw [pageOf_pageAt placed iBelow, pageOf_pageAt otherPlaced jBelow] at same
  have startA : a.ptr = VmmLevel.supervisor.base + block * pageSize :=
    placed.ptr_eq
  have startB : b.ptr = VmmLevel.supervisor.base + other * pageSize :=
    otherPlaced.ptr_eq
  unfold pageSize at startA startB
  by_cases equal : a = b
  · subst equal
    refine ⟨rfl, ?_⟩
    omega
  · have symmetric : Std.Symm fun left right : Allocation =>
        Disjoint (left.range (kernelWindow maxPages fits).bsize)
          (right.range (kernelWindow maxPages fits).bsize) :=
      ⟨fun _ _ apart => apart.symm⟩
    have disjoint : Disjoint (a.range pageSize) (b.range pageSize) :=
      inv.pool.separate.forall aLive bLive equal
    have meets := Set.disjoint_left.mp disjoint
    have inA : a.ptr + i * 4096 ∈ a.range pageSize := by
      rw [Allocation.range, Set.mem_Ico]
      unfold pageSize at iBelow ⊢
      omega
    refine absurd ?_ (meets inA)
    rw [Allocation.range, Set.mem_Ico]
    unfold pageSize at jBelow ⊢
    omega

/-- No range is live twice, since it would overlap itself. -/
theorem Inv.live_nodup (inv : Inv maxPages fits root c) : c.live.Nodup := by
  refine inv.pool.separate.imp_of_mem ?_
  intro a b aLive _ disjoint same
  subst same
  have positive := inv.blocks_pos a aLive
  have start : a.ptr ∈ a.range pageSize := by
    rw [Allocation.range, Set.mem_Ico]
    unfold pageSize at positive ⊢
    omega
  exact Set.disjoint_left.mp disjoint start start

theorem livePages_cons (a : Allocation) (live : List Allocation) :
    livePages (a :: live) =
      livePages live ∪
        Machine.loopPages (BitVec.ofNat 64 a.ptr) (a.blocks pageSize) := by
  ext page
  simp only [livePages, Machine.loopPages, Set.mem_ofPred_eq, Set.mem_union,
    List.mem_cons, exists_eq_or_imp, pageAt]
  exact or_comm

/-! ## `valloc` -/

/-- The blocks that `bm_alloc` chose are pages that nobody holds. -/
theorem Inv.fresh_pages
    {pages block : Nat} {mem : Memory} {record : Bitmap}
    (inv : Inv maxPages fits root c)
    (blocks_eq : divCeil (wrap (pages * pageSize)) pageSize = pages)
    (fresh : Pool.Fresh (kernelWindow maxPages fits) c.pool
      (wrap (pages * pageSize)) block mem record)
    {i : Nat}
    (below : i < pages) :
    pageOf (Pmm.pageAddress (BitVec.ofNat 64
        (VmmLevel.supervisor.base + block * pageSize)) i) =
        2 ^ 35 + (block + i) ∧
      2 ^ 35 + (block + i) ∉ livePages c.live := by
  have size_eq : divCeil (wrap (pages * pageSize))
      (kernelWindow maxPages fits).bsize = pages := blocks_eq
  have last : block + pages ≤ maxPages := by
    have ends := fresh.end_le
    rwa [size_eq, kernelWindow_tblocks] at ends
  refine ⟨pageOf_kernelWindow (by omega), ?_⟩
  rintro ⟨a, member, j, jBelow, same⟩
  obtain ⟨other, placed⟩ := inv.pool.placed a member
  rw [pageOf_pageAt placed jBelow] at same
  have free := fresh.run_free inv.pool (size_eq.symm ▸ below)
  rw [show block + i = other + j by omega] at free
  exact placed.used j jBelow free

/-- Frames that are mapped into the chosen blocks are owned with them. -/
theorem Inv.owns_fresh
    {pages block : Nat} {mem : Memory} {record : Bitmap} {machine : Machine}
    (inv : Inv maxPages fits root c)
    (blocks_eq : divCeil (wrap (pages * pageSize)) pageSize = pages)
    (fresh : Pool.Fresh (kernelWindow maxPages fits) c.pool
      (wrap (pages * pageSize)) block mem record)
    (mapped : Machine.mapFrames
      (BitVec.ofNat 64 (VmmLevel.supervisor.base + block * pageSize))
      kernelPtEntry root pages c.space.machine = some machine)
    (enough : machine.nulls = c.space.machine.nulls) :
    machine.Owns root (livePages
      (⟨VmmLevel.supervisor.base + block * pageSize,
        wrap (pages * pageSize)⟩ :: c.live)) := by
  rw [livePages_cons]
  simp only [Allocation.blocks, blocks_eq]
  have newPages := fun i => inv.fresh_pages (i := i) blocks_eq fresh
  refine inv.owns.mapFrames (by decide) ?_ ?_ ?_ ?_ mapped enough
  · intro i below null
    have page := (newPages i below).1
    rw [null] at page
    change 0 = _ at page
    omega
  · intro i below
    rw [(newPages i below).1]
    omega
  · intro i j iBelow jBelow same
    rw [(newPages i iBelow).1, (newPages j jBelow).1] at same
    omega
  · intro i below
    rw [(newPages i below).1]
    exact (newPages i below).2

/-- `valloc` keeps the invariant. -/
theorem Inv.valloc
    {pages : Nat}
    (inv : Inv maxPages fits root c)
    (stepped : c.exec (.valloc pages) = some next)
    (enough : next.space.machine.nulls = c.space.machine.nulls) :
    Inv maxPages fits root next := by
  obtain ⟨result, allocated, rfl⟩ := Option.map_eq_some_iff.mp stepped
  obtain ⟨-, rfl⟩ | ⟨some_pages, machine, mapped, rfl⟩ :=
    Space.valloc_cases allocated
  · exact inv
  · rw [inv.p4Tbl_eq, inv.flags_eq] at mapped
    -- Every round takes a frame, so there are not many.
    have counted := Machine.mapFrames_freeCount inv.owns.marks mapped enough
    obtain ⟨taken, tables, grown⟩ :=
      Machine.mapFrames_grown inv.owns.tree inv.owns.marks mapped enough
    have few := c.space.machine.pmm.freeCount_le
    obtain ⟨noWrap, blocks_eq⟩ := divCeil_pages
      (show pages ≤ 2 ^ 22 by omega)
    have poolNext := inv.pool.alloc (wrap (pages * pageSize)) rfl
    obtain null | ⟨block, mem, record, eq, fresh⟩ :=
      inv.pool.bmAlloc_cases (wrap (pages * pageSize))
    · have zero : (bmAlloc c.space.mem (wrap (pages * pageSize))
          c.space.vi.bm).1 = 0 := congrArg Prod.fst null
      have same : (if (bmAlloc c.space.mem (wrap (pages * pageSize))
            c.space.vi.bm).1 = 0 then c.live
          else ⟨(bmAlloc c.space.mem (wrap (pages * pageSize))
            c.space.vi.bm).1, wrap (pages * pageSize)⟩ :: c.live) = c.live :=
        if_pos zero
      refine
        { pool := poolNext
          p4Tbl_eq := inv.p4Tbl_eq
          flags_eq := inv.flags_eq
          blocks_pos := same.symm ▸ inv.blocks_pos
          owns := ?_ }
      simp only [same]
      rw [zero] at grown
      refine inv.owns.grown grown ?_
      rintro page member ⟨i, below, rfl⟩
      have high := inv.owns.high _ member
      rw [pageOf_fromNull (by omega)] at high
      omega
    · have start : (bmAlloc c.space.mem (wrap (pages * pageSize))
          c.space.vi.bm).1 = VmmLevel.supervisor.base + block * pageSize :=
        congrArg Prod.fst eq
      have notNull : VmmLevel.supervisor.base + block * pageSize ≠ 0 := by
        change 0xFFFF800000000000 + block * 4096 ≠ 0
        omega
      have longer : (if (bmAlloc c.space.mem (wrap (pages * pageSize))
            c.space.vi.bm).1 = 0 then c.live
          else ⟨(bmAlloc c.space.mem (wrap (pages * pageSize))
            c.space.vi.bm).1, wrap (pages * pageSize)⟩ :: c.live) =
          ⟨VmmLevel.supervisor.base + block * pageSize,
            wrap (pages * pageSize)⟩ :: c.live := by
        rw [start, if_neg notNull]
      refine
        { pool := poolNext
          p4Tbl_eq := inv.p4Tbl_eq
          flags_eq := inv.flags_eq
          blocks_pos := ?_
          owns := ?_ }
      · simp only [longer]
        intro a member
        rcases List.mem_cons.mp member with rfl | old
        · rw [Allocation.blocks, blocks_eq]
          exact Nat.pos_of_ne_zero some_pages
        · exact inv.blocks_pos a old
      · simp only [longer]
        rw [start] at mapped
        exact inv.owns_fresh blocks_eq fresh mapped enough

/-! ## `vfree` -/

end Client

namespace Machine.Owns

variable {root : Word} {pages fewer : Set Nat} {s : Machine}

/-- The frame of an owned page may be given back with its page. -/
theorem release
    {address : Word}
    (owns : Owns root pages s)
    (member : pageOf address ∈ pages)
    (subset : fewer ⊆ pages)
    (without : pageOf address ∉ fewer) :
    Owns root fewer
      { s with
        pmm := s.pmm.pmmClearBit (s.translateAddr address root) } := by
  have notNull := owns.tree.root_ne_zero
  have masked : ∀ other, (s.translateAddr other root).toNat % 4096 = 0 := by
    intro other
    rw [Machine.translateAddr_eq _ notNull, and_signMask_toNat]
    omega
  have usedStill : ∀ frame : Word, frame.toNat % 4096 = 0 →
      s.pmm.Used (frameOf frame) → frame ≠ s.translateAddr address root →
        (s.pmm.pmmClearBit (s.translateAddr address root)).Used
          (frameOf frame) := by
    intro frame aligned used different
    rw [Pmm.used_pmmClearBit]
    refine ⟨used, ?_⟩
    rintro ⟨-, same⟩
    exact different (eq_of_frameOf_eq aligned (masked address) same)
  have kept := owns.subset subset
  exact
    { tree :=
        { distinct := owns.tree.distinct
          used := by
            intro table isTable
            apply usedStill table (owns.tree.isTable_aligned isTable)
              (owns.tree.used table isTable)
            rintro rfl
            exact owns.not_isTable address member isTable
          root_aligned := owns.tree.root_aligned
          root_ne_zero := notNull }
      marks := by
        rintro k ⟨inside, unused⟩
        rw [Pmm.pmmClearBit_bitmapEntries] at inside
        rw [Pmm.used_pmmClearBit, not_and_or, not_not] at unused
        rw [Pmm.pmmClearBit_memPages]
        rcases unused with free | ⟨-, rfl⟩
        · exact owns.marks k ⟨inside, free⟩
        · exact owns.le_memPages address member
      high := kept.high
      ne_zero := kept.ne_zero
      used := by
        intro other inFewer
        apply usedStill _ (masked other) (kept.used other inFewer)
        intro same
        have page := owns.distinct other address (subset inFewer) member same
        exact without (page ▸ inFewer)
      le_memPages := by
        intro other inFewer
        rw [Pmm.pmmClearBit_memPages]
        exact kept.le_memPages other inFewer
      not_isTable := kept.not_isTable
      distinct := kept.distinct }

end Machine.Owns

namespace Client

variable {maxPages : Nat} {fits : maxPages < 2 ^ 35} {root : Word}
variable {c next last : Client}

/-- `vfree` of a live range keeps the invariant. -/
theorem Inv.vfree
    {a : Allocation}
    (inv : Inv maxPages fits root c)
    (stepped : c.exec (.vfree a) = some next) :
    Inv maxPages fits root next := by
  rw [exec] at stepped
  split at stepped
  · rename_i member
    obtain rfl := Option.some.inj stepped
    have positive := inv.blocks_pos a member
    obtain ⟨block, placed⟩ := inv.pool.placed a member
    have poolNext : Pool.Inv (kernelWindow maxPages fits)
        (Client.pool ⟨c.space.vfree a.ptr, c.live.erase a⟩) :=
      inv.pool.free a (if_pos member)
    -- The length that `bm_free` returns is one block.
    have length : (bmFree c.space.mem a.ptr c.space.vi.bm).1 = pageSize :=
      inv.pool.bmFree_result placed positive
    have subset : ∀ b ∈ c.live.erase a, b ∈ c.live :=
      fun b => List.mem_of_mem_erase
    have machine_eq : (c.space.vfree a.ptr).machine =
        { c.space.machine with
          pmm := c.space.machine.pmm.pmmClearBit
            (c.space.machine.translateAddr (pageAt a 0) root) } := by
      rw [Space.vfree]
      simp only [length, inv.p4Tbl_eq]
      rfl
    refine
      { pool := poolNext
        p4Tbl_eq := inv.p4Tbl_eq
        flags_eq := inv.flags_eq
        blocks_pos := fun b kept => inv.blocks_pos b (subset b kept)
        owns := ?_ }
    simp only [machine_eq]
    refine inv.owns.release ⟨a, member, 0, positive, rfl⟩ ?_ ?_
    · rintro page ⟨b, kept, i, below, rfl⟩
      exact ⟨b, subset b kept, i, below, rfl⟩
    · rintro ⟨b, kept, i, below, same⟩
      obtain ⟨rfl, -⟩ := inv.pageAt_injective member (subset b kept) positive
        below same
      exact ((inv.live_nodup.mem_erase_iff).mp kept).1 rfl
  · contradiction

/-! ## Runs -/

theorem clearFrames_nulls
    {start p4Tbl : Word} (count : Nat) (s : Machine) :
    (s.clearFrames start p4Tbl count).nulls = s.nulls := by
  induction count with
  | zero => rfl
  | succ count inductionHypothesis => exact inductionHypothesis

theorem exec_nulls_le
    {call : VmmCall}
    (stepped : c.exec call = some next) :
    c.space.machine.nulls ≤ next.space.machine.nulls := by
  cases call with
  | valloc pages =>
      obtain ⟨result, allocated, rfl⟩ := Option.map_eq_some_iff.mp stepped
      obtain ⟨-, rfl⟩ | ⟨-, machine, mapped, rfl⟩ :=
        Space.valloc_cases allocated
      · exact le_rfl
      · exact (Machine.mapFrames_advances mapped).nulls_le
  | vfree a =>
      rw [exec] at stepped
      split at stepped
      · obtain rfl := Option.some.inj stepped
        exact (clearFrames_nulls _ _).ge
      · contradiction

theorem run_nulls_le
    {calls : List VmmCall}
    (ran : Runs.run exec c calls = some last) :
    c.space.machine.nulls ≤ last.space.machine.nulls :=
  Runs.run_invariant
    (fun d => c.space.machine.nulls ≤ d.space.machine.nulls)
    (fun _ _ _ before stepped => before.trans (exec_nulls_le stepped))
    le_rfl ran

theorem Inv.run
    {calls : List VmmCall}
    (inv : Inv maxPages fits root c)
    (ran : Runs.run exec c calls = some last)
    (enough : last.space.machine.nulls = c.space.machine.nulls) :
    Inv maxPages fits root last := by
  induction calls generalizing c with
  | nil =>
      obtain rfl : c = last := by simpa using ran
      exact inv
  | cons call calls inductionHypothesis =>
      obtain ⟨next, stepped, rest⟩ := Runs.run_cons.mp ran
      have before := exec_nulls_le stepped
      have after := run_nulls_le rest
      refine inductionHypothesis ?_ rest (by omega)
      cases call with
      | valloc pages => exact inv.valloc stepped (by omega)
      | vfree a => exact inv.vfree stepped

/-- `init_vmm` establishes the invariant. -/
theorem initVmm_inv
    {start first : Space}
    (fits : maxPages < 2 ^ 35)
    (tree : start.machine.Tree start.vi.p4Tbl)
    (marks : start.machine.pmm.Marks)
    (initialised : start.initVmm .supervisor maxPages = some first)
    (enough : first.machine.nulls = start.machine.nulls) :
    Inv maxPages fits start.vi.p4Tbl ⟨first, []⟩ := by
  obtain ⟨machine, mapped, rfl⟩ := Option.map_eq_some_iff.mp initialised
  obtain ⟨taken, tables, grown⟩ :=
    Machine.mapFrames_grown tree marks mapped enough
  have size_eq : wrap (maxPages * pageSize) = maxPages * pageSize := by
    unfold wrap pageSize
    omega
  have none_live : livePages [] = ∅ := by
    simp [livePages]
  refine
    { pool := ?_
      p4Tbl_eq := rfl
      flags_eq := rfl
      blocks_pos := by simp
      owns := ?_ }
  · rw [size_eq]
    exact Pool.init_inv (kernelWindow maxPages fits) start.mem
  · rw [none_live]
    exact Machine.Owns.empty grown.tree (grown.marks marks)

/-- In every run of `valloc` and `vfree` after `init_vmm` in which no
`alloc_frame` fails, the pages of all live ranges translate to non-null
frames that are in use, that are no page tables, and that no two pages
share. -/
theorem live_pages_own_frames
    (start first : Space) (last : Client) (maxPages : Nat)
    (calls : List VmmCall)
    (fits : maxPages < 2 ^ 35)
    (tree : start.machine.Tree start.vi.p4Tbl)
    (marks : start.machine.pmm.Marks)
    (initialised : start.initVmm .supervisor maxPages = some first)
    (ran : Runs.run exec ⟨first, []⟩ calls = some last)
    (enough : last.space.machine.nulls = start.machine.nulls) :
    let frame := fun a i =>
      last.space.machine.translateAddr (pageAt a i) last.space.vi.p4Tbl
    (∀ a ∈ last.live, ∀ i, i < a.blocks pageSize →
      frame a i ≠ 0#64 ∧
      last.space.machine.pmm.Used (frameOf (frame a i)) ∧
      ¬ last.space.machine.IsTable last.space.vi.p4Tbl (frame a i)) ∧
    ∀ a ∈ last.live, ∀ b ∈ last.live, ∀ i j,
      i < a.blocks pageSize → j < b.blocks pageSize →
        frame a i = frame b j → a = b ∧ i = j := by
  obtain ⟨machine, mapped, rfl⟩ := Option.map_eq_some_iff.mp initialised
  have before := (Machine.mapFrames_advances mapped).nulls_le
  have after := run_nulls_le ran
  simp only at after
  have inv := (initVmm_inv fits tree marks initialised (by
    simp only
    omega)).run ran (by
    simp only
    omega)
  simp only
  rw [inv.p4Tbl_eq]
  refine ⟨?_, ?_⟩
  · intro a member i below
    have page : pageOf (pageAt a i) ∈ livePages last.live :=
      ⟨a, member, i, below, rfl⟩
    exact ⟨inv.owns.ne_zero _ page, inv.owns.used _ page,
      inv.owns.not_isTable _ page⟩
  · intro a aLive b bLive i j iBelow jBelow same
    exact inv.pageAt_injective aLive bLive iBelow jBelow
      (inv.owns.distinct _ _ ⟨a, aLive, i, iBelow, rfl⟩
        ⟨b, bLive, j, jBelow, rfl⟩ same)

/-- A VMM to be set up on the sample machine. -/
def sampleSpace : Space where
  machine := Machine.sampleMachine
  mem := fun _ => 0#8
  vi :=
    { flags := 0#64
      p4Tbl := 0x1000#64
      bm := { size := 0, bsize := 0, used := 0, ffa := 0, bm := 0 } }

/-- Two ranges, one of them freed, and a third. -/
def sampleCalls : List VmmCall :=
  [.valloc 2, .valloc 1, .vfree ⟨0xFFFF800000001000, 8192⟩, .valloc 1]

theorem live_pages_own_frames_sample :
    ∃ first last, sampleSpace.initVmm .supervisor 8 = some first ∧
      Runs.run exec ⟨first, []⟩ sampleCalls = some last ∧
      last.live =
        [⟨0xFFFF800000004000, 4096⟩, ⟨0xFFFF800000003000, 4096⟩] ∧
      ∀ a ∈ last.live, ∀ b ∈ last.live, ∀ i j,
        i < a.blocks pageSize → j < b.blocks pageSize →
          last.space.machine.translateAddr (pageAt a i) last.space.vi.p4Tbl =
            last.space.machine.translateAddr (pageAt b j)
              last.space.vi.p4Tbl → a = b ∧ i = j := by
  have ran : ((sampleSpace.initVmm .supervisor 8).bind fun first =>
      Runs.run exec ⟨first, []⟩ sampleCalls).map
        (fun last => (last.live, last.space.machine.nulls)) =
      some ([⟨0xFFFF800000004000, 4096⟩, ⟨0xFFFF800000003000, 4096⟩], 0) := by
    decide +kernel
  obtain ⟨last, both, observed⟩ := Option.map_eq_some_iff.mp ran
  obtain ⟨first, initialised, ran⟩ := Option.bind_eq_some_iff.mp both
  obtain ⟨live, noNull⟩ := Prod.mk.inj observed
  exact ⟨first, last, initialised, ran, live,
    (live_pages_own_frames sampleSpace first last 8 sampleCalls (by decide)
      Machine.sampleMachine_tree Machine.sampleMachine_marks initialised ran
      noNull).2⟩

end Client
end PivotOs
