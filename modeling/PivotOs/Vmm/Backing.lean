import PivotOs.Vmm.BootPages
import PivotOs.Vmm.Release

/-!
# The pages of a window's own bitmap

`init_vmm` maps the pages that are to hold the bitmap of the window, a byte for
every page of the window, before `init_bitmap` reserves the blocks of the
bitmap, four pages to a byte.  The two counts agree for windows of at most 4096
pages.  Beyond that, pages stay free in the bitmap that have a frame already,
and the first `valloc` maps another frame there.
-/

namespace PivotOs

open Paging Bitmap

namespace VmmLevel

variable {level : VmmLevel} {maxPages : Nat}

/-- The page at which the window starts. -/
def firstPage : VmmLevel → Nat
  | supervisor => 2 ^ 35
  | user => 1

/-- Page tables are mapped at their own addresses, in the lower half.  No frame
that may become one lies in the window. -/
def ClearOfFrames (maxPages : Nat) (m : Pmm) : VmmLevel → Prop
  | supervisor => True
  | user => ∀ k, m.Free k → maxPages < k

/-- A call that fails maps the pages behind the null pointer, which at the user
level are those of the window. -/
def RoomFor (c : Client) (pages : Nat) : VmmLevel → Prop
  | supervisor => True
  | user =>
      pages ≤ 1 ∨
        (bmAlloc c.space.mem (wrap (pages * pageSize)) c.space.vi.bm).1 ≠ 0

/-- The `i`-th page behind a block of the window. -/
theorem pageOf_window
    (level : VmmLevel)
    {block i : Nat}
    (inside : block + i < 2 ^ 35) :
    pageOf (Pmm.pageAddress
        (BitVec.ofNat 64 (level.base + block * pageSize)) i) =
      level.firstPage + (block + i) := by
  cases level with
  | supervisor => exact pageOf_kernelWindow inside
  | user =>
      change pageOf (BitVec.ofNat 64 (4096 + block * 4096) +
        BitVec.ofNat 64 (4096 * i)) = 1 + (block + i)
      rw [pageOf, BitVec.toNat_add, BitVec.toNat_ofNat, BitVec.toNat_ofNat,
        pageSize]
      omega

theorem window_tblocks (fits : level.base + maxPages * pageSize < 2 ^ 64) :
    (level.window maxPages fits).tblocks = maxPages :=
  Nat.mul_div_cancel maxPages pageSize_pos

theorem window_reserved (fits : level.base + maxPages * pageSize < 2 ^ 64) :
    (level.window maxPages fits).reserved =
      ((maxPages + 3) / 4 + 4095) / 4096 := by
  rw [Region.reserved_eq, Region.bitmapBytes, window_tblocks]
  rfl

/-- `init_vmm` maps as many pages as `init_bitmap` reserves exactly in windows
of at most 4096 pages. -/
theorem backing_eq_iff
    (fits : level.base + maxPages * pageSize < 2 ^ 64)
    (some_pages : 1 ≤ maxPages) :
    divCeil maxPages pageSize = (level.window maxPages fits).reserved ↔
      maxPages ≤ 4096 := by
  rw [window_reserved, divCeil, wrap_of_lt (by simp only [pageSize] at *; omega)]
  simp only [pageSize]
  omega

/-- A frame that may become a table is not mapped into the window. -/
theorem firstPage_add_ne
    {m : Pmm} {frame : Word} {block : Nat}
    (clear : level.ClearOfFrames maxPages m)
    (fresh : m.Fresh frame)
    (inside : block < maxPages) :
    level.firstPage + block ≠ pageOf frame := by
  have small := fresh.small
  rw [fresh.pageOf_eq]
  cases level with
  | supervisor =>
      simp only [firstPage]
      omega
  | user =>
      have above := clear (frameOf frame) fresh.free
      simp only [firstPage]
      omega

end VmmLevel

namespace Client

variable {level : VmmLevel} {maxPages : Nat} {root : Word}
variable {fits : level.base + maxPages * pageSize < 2 ^ 64}
variable {start : Pmm} {first : Machine} {c next last : Client}

/-- The pages that `init_vmm` maps for the bitmap are not handed out and keep
their frames, and the tables it made stay tables. -/
structure KeepsBacking (level : VmmLevel) (maxPages : Nat)
    (start first : Space) (last : Client) : Prop where
  /-- No page handed out is one that `init_vmm` mapped. -/
  apart : ∀ a ∈ last.live, ∀ i, i < a.blocks pageSize →
    pageOf (pageAt a i) ∉
      Machine.loopPages (BitVec.ofNat 64 level.base)
        (divCeil maxPages pageSize)
  /-- Its entry was not written by `init_vmm` for other reasons either. -/
  unmapped : ∀ a ∈ last.live, ∀ i, i < a.blocks pageSize →
    first.machine.leafAt start.vi.p4Tbl (pageAt a i) =
      start.machine.leafAt start.vi.p4Tbl (pageAt a i)
  /-- The frames of the bitmap are still mapped where they were. -/
  mapped : ∀ i, i < divCeil maxPages pageSize →
    let address := Pmm.pageAddress (BitVec.ofNat 64 level.base) i
    last.space.machine.translateAddr address start.vi.p4Tbl =
      first.machine.translateAddr address start.vi.p4Tbl
  /-- The tables are still tables. -/
  tables : ∀ table, first.machine.IsTable start.vi.p4Tbl table →
    last.space.machine.IsTable start.vi.p4Tbl table

/-- What holds after `init_vmm` and every run of `valloc` in a window of at
most 4096 pages. -/
structure Backed (level : VmmLevel) (maxPages : Nat)
    (fits : level.base + maxPages * pageSize < 2 ^ 64)
    (root : Word) (start : Pmm) (first : Machine) (c : Client) : Prop where
  /-- The bitmap keeps the ranges apart. -/
  pool : Pool.Inv (level.window maxPages fits) c.pool
  /-- The root of the page tables is not replaced. -/
  p4Tbl_eq : c.space.vi.p4Tbl = root
  /-- The page tables are well formed. -/
  tree : c.space.machine.Tree root
  /-- Frames that were taken stay taken. -/
  marked : start.Marked c.space.machine.pmm
  /-- The first page of the window keeps its entry. -/
  kept : ∀ address, pageOf address = level.firstPage →
    c.space.machine.leafAt root address = first.leafAt root address
  /-- Tables stay tables. -/
  tables : ∀ table, first.IsTable root table →
    c.space.machine.IsTable root table

/-- The pages of a range lie in the window behind its first page. -/
theorem pageOf_pageAt_window
    {mem : Memory} {a : Allocation} {block i : Nat}
    (small : maxPages ≤ 4096)
    (placed : Pool.Placed (level.window maxPages fits) mem a block)
    (below : i < a.blocks pageSize) :
    pageOf (pageAt a i) = level.firstPage + (block + i) ∧
      0 < block ∧ block + i < maxPages := by
  have inside := placed.inside
  have endLe := placed.end_le
  have behind := placed.reserved_le
  rw [VmmLevel.window_tblocks] at inside endLe
  rw [VmmLevel.window_reserved] at behind
  have last : block + i < maxPages := by
    change block + a.blocks pageSize ≤ maxPages at endLe
    omega
  refine ⟨?_, by omega, last⟩
  rw [pageAt, placed.ptr_eq]
  exact level.pageOf_window (by omega)

/-- A `valloc` maps no frame at the first page of the window. -/
theorem Backed.firstPage_not_mem
    {pages : Nat}
    (backed : Backed level maxPages fits root start first c)
    (some_pages : 1 ≤ maxPages)
    (small : maxPages ≤ 4096)
    (few : pages ≤ 2 ^ 22)
    (room : level.RoomFor c pages) :
    level.firstPage ∉ Machine.loopPages
      (BitVec.ofNat 64
        (bmAlloc c.space.mem (wrap (pages * pageSize)) c.space.vi.bm).1)
      pages := by
  rintro ⟨i, below, page⟩
  obtain null | ⟨block, mem, record, eq, fresh⟩ :=
    backed.pool.bmAlloc_cases (wrap (pages * pageSize))
  · -- The call fails: it maps the pages from address 0 on.
    have isNull : (bmAlloc c.space.mem (wrap (pages * pageSize))
        c.space.vi.bm).1 = 0 := congrArg Prod.fst null
    rw [isNull, pageOf_fromNull (by omega)] at page
    cases level with
    | supervisor =>
        simp only [VmmLevel.firstPage] at page
        omega
    | user =>
        simp only [VmmLevel.firstPage] at page
        rcases room with single | granted
        · omega
        · exact granted isNull
  · have place : (bmAlloc c.space.mem (wrap (pages * pageSize))
        c.space.vi.bm).1 = level.base + block * pageSize :=
      congrArg Prod.fst eq
    have behind := fresh.reserved_le backed.pool
    have inside := fresh.end_le
    rw [VmmLevel.window_reserved] at behind
    rw [VmmLevel.window_tblocks] at inside
    change block + divCeil (wrap (pages * pageSize)) pageSize ≤ maxPages
      at inside
    rw [(divCeil_pages few).2] at inside
    rw [place, level.pageOf_window (by omega)] at page
    omega

/-- A `valloc` for which there are frames keeps the backing. -/
theorem Backed.valloc
    {pages : Nat}
    (backed : Backed level maxPages fits root start first c)
    (some_pages : 1 ≤ maxPages)
    (small : maxPages ≤ 4096)
    (marks : start.Marks)
    (clear : level.ClearOfFrames maxPages start)
    (room : level.RoomFor c pages)
    (stepped : c.execValloc pages = some next)
    (enough : next.space.machine.nulls = c.space.machine.nulls) :
    Backed level maxPages fits root start first next := by
  obtain ⟨result, allocated, rfl⟩ := Option.map_eq_some_iff.mp stepped
  obtain ⟨-, rfl⟩ | ⟨-, machine, mapped, rfl⟩ := Space.valloc_cases allocated
  · exact backed
  · rw [backed.p4Tbl_eq] at mapped
    have marksHere := backed.marked.marks marks
    have counted := Machine.mapFrames_freeCount marksHere mapped enough
    have few := c.space.machine.pmm.freeCount_le
    obtain ⟨taken, tables, grown⟩ :=
      Machine.mapFrames_grown backed.tree marksHere mapped enough
    refine
      { pool := backed.pool.alloc (wrap (pages * pageSize)) rfl
        p4Tbl_eq := backed.p4Tbl_eq
        tree := grown.tree
        marked := backed.marked.trans grown.marked
        kept := ?_
        tables := ?_ }
    · intro address here
      refine (grown.leaf_other address ?_ ?_).trans (backed.kept address here)
      · rw [here]
        exact backed.firstPage_not_mem some_pages small (by omega) room
      · intro table isNew
        have fresh := grown.fresh table (grown.tables_taken table isNew)
        rw [here]
        exact VmmLevel.firstPage_add_ne clear
          (Pmm.Fresh.of_marked backed.marked fresh) some_pages
    · intro table old
      exact (grown.isTable_iff table).mpr (Or.inl (backed.tables table old))

/-- A run of `valloc` for which there are frames keeps the backing. -/
theorem Backed.run
    {requests : List Nat}
    (backed : Backed level maxPages fits root start first c)
    (some_pages : 1 ≤ maxPages)
    (small : maxPages ≤ 4096)
    (marks : start.Marks)
    (clear : level.ClearOfFrames maxPages start)
    (room : Runs.Along execValloc (fun c pages => level.RoomFor c pages) c
      requests)
    (ran : Runs.run execValloc c requests = some last)
    (enough : last.space.machine.nulls = c.space.machine.nulls) :
    Backed level maxPages fits root start first last := by
  induction requests generalizing c with
  | nil =>
      obtain rfl : c = last := by simpa using ran
      exact backed
  | cons pages requests inductionHypothesis =>
      obtain ⟨next, stepped, rest⟩ := Runs.run_cons.mp ran
      have before : c.space.machine.nulls ≤ next.space.machine.nulls :=
        exec_nulls_le stepped
      have after := run_valloc_nulls_le rest
      exact inductionHypothesis
        (backed.valloc some_pages small marks clear room.1 stepped (by omega))
        (room.2 next stepped) rest (by omega)

section Initial

variable {start first : Space}

theorem initVmm_nulls_le
    (initialised : start.initVmm level maxPages = some first) :
    start.machine.nulls ≤ first.machine.nulls := by
  obtain ⟨machine, mapped, rfl⟩ := Option.map_eq_some_iff.mp initialised
  exact (Machine.mapFrames_advances mapped).nulls_le

/-- `init_vmm` maps the pages of its loop, and its new tables. -/
theorem initVmm_grown
    (tree : start.machine.Tree start.vi.p4Tbl)
    (marks : start.machine.pmm.Marks)
    (initialised : start.initVmm level maxPages = some first)
    (enough : first.machine.nulls = start.machine.nulls) :
    ∃ taken tables,
      Machine.Grown start.vi.p4Tbl taken tables
        (Machine.loopPages (BitVec.ofNat 64 level.base)
          (divCeil maxPages pageSize)) start.machine first.machine := by
  obtain ⟨machine, mapped, rfl⟩ := Option.map_eq_some_iff.mp initialised
  exact Machine.mapFrames_grown tree marks mapped enough

theorem initVmm_backed
    (tree : start.machine.Tree start.vi.p4Tbl)
    (marks : start.machine.pmm.Marks)
    (initialised : start.initVmm level maxPages = some first)
    (enough : first.machine.nulls = start.machine.nulls) :
    Backed level maxPages fits start.vi.p4Tbl start.machine.pmm first.machine
      ⟨first, []⟩ := by
  obtain ⟨taken, tables, grown⟩ :=
    initVmm_grown tree marks initialised enough
  have reachable := Space.initVmm_reachable fits initialised
  obtain ⟨machine, -, rfl⟩ := Option.map_eq_some_iff.mp initialised
  exact
    { pool := reachable.inv
      p4Tbl_eq := rfl
      tree := grown.tree
      marked := grown.marked
      kept := fun _ _ => rfl
      tables := fun _ old => old }

/-- In a window of at most 4096 pages `init_vmm` maps one page, the first. -/
theorem loopPages_initVmm
    (level : VmmLevel)
    (some_pages : 1 ≤ maxPages)
    (small : maxPages ≤ 4096) :
    divCeil maxPages pageSize = 1 ∧
      Machine.loopPages (BitVec.ofNat 64 level.base) 1 =
        {level.firstPage} := by
  have first : pageOf (Pmm.pageAddress (BitVec.ofNat 64 level.base) 0) =
      level.firstPage := by
    have page := level.pageOf_window (show 0 + 0 < 2 ^ 35 by decide)
    rwa [Nat.zero_mul, Nat.add_zero] at page
  constructor
  · unfold divCeil wrap pageSize
    omega
  · ext page
    simp only [Machine.loopPages, Nat.lt_one_iff, exists_eq_left, first,
      Set.mem_ofPred_eq, Set.mem_singleton_iff]

end Initial

/-- `init_vmm` backs exactly the pages that `init_bitmap` reserves when the
window has at most 4096 pages.  Then, in every run of `valloc` in which no
`alloc_frame` fails and, at the user level, neither a page table nor a failing
call is mapped into the window, no page handed out was mapped by `init_vmm` and
the frames it took stay where they are. -/
theorem backing_kept
    (level : VmmLevel) (maxPages : Nat)
    (fits : level.base + maxPages * pageSize < 2 ^ 64)
    (start first : Space) (last : Client) (requests : List Nat)
    (some_pages : 1 ≤ maxPages)
    (tree : start.machine.Tree start.vi.p4Tbl)
    (marks : start.machine.pmm.Marks)
    (initialised : start.initVmm level maxPages = some first)
    (ran : Runs.run execValloc ⟨first, []⟩ requests = some last)
    (enough : last.space.machine.nulls = start.machine.nulls)
    (clear : level.ClearOfFrames maxPages start.machine.pmm)
    (room : Runs.Along execValloc (fun c pages => level.RoomFor c pages)
      ⟨first, []⟩ requests) :
    (divCeil maxPages pageSize = (level.window maxPages fits).reserved ↔
      maxPages ≤ 4096) ∧
    (maxPages ≤ 4096 → KeepsBacking level maxPages start first last) := by
  refine ⟨VmmLevel.backing_eq_iff fits some_pages, fun small => ?_⟩
  have after : first.machine.nulls ≤ last.space.machine.nulls :=
    run_valloc_nulls_le ran
  have before := initVmm_nulls_le initialised
  obtain ⟨taken, tables, grown⟩ :=
    initVmm_grown tree marks initialised (by omega)
  have initial : Backed level maxPages fits start.vi.p4Tbl start.machine.pmm
      first.machine ⟨first, []⟩ :=
    initVmm_backed tree marks initialised (by omega)
  have backed := initial.run some_pages small marks clear room ran (by
    simp only
    omega)
  obtain ⟨single, pages_eq⟩ := loopPages_initVmm level some_pages small
  rw [single, pages_eq] at grown
  have behind : ∀ a ∈ last.live, ∀ i, i < a.blocks pageSize →
      ∃ block, pageOf (pageAt a i) = level.firstPage + block ∧ 0 < block ∧
        block < maxPages := by
    intro a member i below
    obtain ⟨block, placed⟩ := backed.pool.placed a member
    obtain ⟨page, positive, inside⟩ :=
      pageOf_pageAt_window small placed below
    exact ⟨block + i, page, by omega, inside⟩
  refine
    { apart := ?_
      unmapped := ?_
      mapped := ?_
      tables := backed.tables }
  · intro a member i below
    obtain ⟨block, page, positive, -⟩ := behind a member i below
    rw [single, pages_eq, page, Set.mem_singleton_iff]
    omega
  · intro a member i below
    obtain ⟨block, page, positive, inside⟩ := behind a member i below
    apply grown.leaf_other
    · rw [page, Set.mem_singleton_iff]
      omega
    · intro table isNew
      rw [page]
      exact VmmLevel.firstPage_add_ne clear
        (grown.fresh table (grown.tables_taken table isNew)) inside
  · intro i below address
    have here : pageOf address = level.firstPage := by
      have member : pageOf address ∈
          Machine.loopPages (BitVec.ofNat 64 level.base) 1 :=
        ⟨i, single ▸ below, rfl⟩
      rwa [pages_eq] at member
    rw [Machine.translateAddr_eq address tree.root_ne_zero,
      Machine.translateAddr_eq address tree.root_ne_zero,
      backed.kept address here]

theorem backing_kept_sample :
    ∃ first last, sampleSpace.initVmm .supervisor 8 = some first ∧
      Runs.run execValloc ⟨first, []⟩ [2, 1] = some last ∧
      last.live =
        [⟨0xFFFF800000003000, 4096⟩, ⟨0xFFFF800000001000, 8192⟩] ∧
      KeepsBacking .supervisor 8 sampleSpace first last := by
  have observed : ((sampleSpace.initVmm .supervisor 8).bind fun first =>
      Runs.run execValloc ⟨first, []⟩ [2, 1]).map
        (fun last => (last.live, last.space.machine.nulls)) =
      some ([⟨0xFFFF800000003000, 4096⟩, ⟨0xFFFF800000001000, 8192⟩], 0) := by
    decide +kernel
  obtain ⟨last, both, same⟩ := Option.map_eq_some_iff.mp observed
  obtain ⟨first, initialised, ran⟩ := Option.bind_eq_some_iff.mp both
  obtain ⟨live, nulls⟩ := Prod.mk.inj same
  refine ⟨first, last, initialised, ran, live, ?_⟩
  exact (backing_kept .supervisor 8 (by decide) sampleSpace first last [2, 1]
    (by decide) Machine.sampleMachine_tree Machine.sampleMachine_marks
    initialised ran nulls trivial
    ⟨trivial, fun _ _ => ⟨trivial, fun _ _ => trivial⟩⟩).2 (by decide)

/-- In a window of 4097 pages two pages are mapped and one is reserved, and the
first `valloc` hands out the second of them. -/
theorem backed_page_handed_out :
    ¬ ∀ (level : VmmLevel) (maxPages : Nat)
        (fits : level.base + maxPages * pageSize < 2 ^ 64)
        (start first : Space) (last : Client) (requests : List Nat),
      1 ≤ maxPages → start.machine.Tree start.vi.p4Tbl →
      start.machine.pmm.Marks → start.initVmm level maxPages = some first →
      Runs.run execValloc ⟨first, []⟩ requests = some last →
      last.space.machine.nulls = start.machine.nulls →
      level.ClearOfFrames maxPages start.machine.pmm →
      Runs.Along execValloc (fun c pages => level.RoomFor c pages) ⟨first, []⟩
        requests →
        divCeil maxPages pageSize = (level.window maxPages fits).reserved ∧
          KeepsBacking level maxPages start first last := by
  intro claim
  have observed : ((sampleSpace.initVmm .supervisor 4097).bind fun first =>
      Runs.run execValloc ⟨first, []⟩ [1]).map
        (fun last => (last.live, last.space.machine.nulls)) =
      some ([⟨0xFFFF800000001000, 4096⟩], 0) := by decide +kernel
  obtain ⟨last, both, same⟩ := Option.map_eq_some_iff.mp observed
  obtain ⟨first, initialised, ran⟩ := Option.bind_eq_some_iff.mp both
  obtain ⟨live, nulls⟩ := Prod.mk.inj same
  have kept := (claim .supervisor 4097 (by decide) sampleSpace first last [1]
    (by decide) Machine.sampleMachine_tree Machine.sampleMachine_marks
    initialised ran nulls trivial ⟨trivial, fun _ _ => trivial⟩).2
  have apart := kept.apart ⟨0xFFFF800000001000, 4096⟩ (by simp [live]) 0
    (by decide)
  exact apart ⟨1, by decide, by decide⟩

end Client
end PivotOs
