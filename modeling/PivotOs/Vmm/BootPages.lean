import PivotOs.Vmm.Exclusive

/-!
# Pages the loader mapped in the window

The loader maps the boot stack and the array of kernel entries at `VADDR` of
their physical addresses.  These addresses lie in the window from which the
kernel's VMM hands out pages, and nothing reserves their blocks in its bitmap:
the page of frame `k` is block `k` of the window.  A `valloc` leaves such a
page alone as long as the first run of free blocks that is long enough does not
contain its block.
-/

namespace PivotOs

open Paging Bitmap

/-- What the firmware chose and the loader mapped in the higher half. -/
structure BootPages where
  /-- The boot stack. -/
  stack : Word
  /-- `kinfo.mem.ke`. -/
  ke : Word
  /-- Pages that the loader maps for the array. -/
  kePages : Nat
  /-- The array lies below `2 ^ 47`. -/
  fits : ke.toNat + kePages * 4096 ≤ 2 ^ 47

/-- An address at which the loader mapped a page in the higher half. -/
def BootPages.Contains (boot : BootPages) (address : Word) : Prop :=
  address = vaddr boot.stack ∨
    ∃ i, i < boot.kePages ∧
      address = Pmm.pageAddress (vaddr (alignAddr boot.ke)) i

theorem BootPages.le_pageOf
    (boot : BootPages)
    {address : Word}
    (contains : boot.Contains address) :
    2 ^ 35 ≤ pageOf address := by
  rcases contains with rfl | ⟨i, below, rfl⟩
  · exact le_pageOf_of_bit (vaddr_bit boot.stack)
  · have fits := boot.fits
    have aligned := alignAddr_toNat boot.ke
    have value := vaddr_toNat
      (show (alignAddr boot.ke).toNat < 2 ^ 47 by omega)
    have offset : higherHalfOffset.toNat = 0xFFFF800000000000 := by decide
    rw [pageOf, Pmm.pageAddress, BitVec.toNat_add, BitVec.toNat_ofNat, value,
      offset, aligned, pageSize]
    omega

namespace Client

variable {maxPages : Nat} {fits : maxPages < 2 ^ 35} {root : Word}
variable {c next last : Client}

/-- The block of the window that an address of the higher half falls in. -/
def windowBlock (address : Word) : Nat := pageOf address - 2 ^ 35

/-- The first run of `pages` free blocks does not contain the block of the
address. -/
def Spares (address : Word) (pages : Nat) (c : Client) : Prop :=
  ∀ block, FirstFree c.space.mem c.space.vi.bm pages c.space.vi.bm.ffa block →
    ¬ (block ≤ windowBlock address ∧ windowBlock address < block + pages)

/-- A `valloc` that spares the block of an address keeps its translation. -/
theorem Inv.valloc_spares
    {pages : Nat} {address : Word}
    (inv : Inv maxPages fits root c)
    (high : 2 ^ 35 ≤ pageOf address)
    (spares : c.Spares address pages)
    (stepped : c.exec (.valloc pages) = some next)
    (enough : next.space.machine.nulls = c.space.machine.nulls) :
    next.space.machine.translateAddr address root =
      c.space.machine.translateAddr address root := by
  obtain ⟨result, allocated, rfl⟩ := Option.map_eq_some_iff.mp stepped
  obtain ⟨-, rfl⟩ | ⟨-, machine, mapped, rfl⟩ := Space.valloc_cases allocated
  · rfl
  · rw [inv.p4Tbl_eq, inv.flags_eq] at mapped
    have counted := Machine.mapFrames_freeCount inv.owns.marks mapped enough
    obtain ⟨taken, tables, grown⟩ :=
      Machine.mapFrames_grown inv.owns.tree inv.owns.marks mapped enough
    have few := c.space.machine.pmm.freeCount_le
    obtain ⟨noWrap, blocks_eq⟩ := divCeil_pages
      (show pages ≤ 2 ^ 22 by omega)
    refine grown.translateAddr_other ?_ ?_
    · rintro ⟨i, below, page⟩
      obtain null | ⟨block, mem, record, eq, fresh⟩ :=
        inv.pool.bmAlloc_cases (wrap (pages * pageSize))
      · rw [show (bmAlloc c.space.mem (wrap (pages * pageSize))
          c.space.vi.bm).1 = 0 from congrArg Prod.fst null,
          pageOf_fromNull (by omega)] at page
        omega
      · have start : (bmAlloc c.space.mem (wrap (pages * pageSize))
            c.space.vi.bm).1 = VmmLevel.supervisor.base + block * pageSize :=
          congrArg Prod.fst eq
        rw [start, (inv.fresh_pages blocks_eq fresh below).1] at page
        have first : FirstFree c.space.mem c.space.vi.bm pages
            c.space.vi.bm.ffa block := by
          have first := fresh.first
          rwa [show divCeil (wrap (pages * pageSize))
            (kernelWindow maxPages fits).bsize = pages from blocks_eq] at first
        apply spares block first
        unfold windowBlock
        omega
    · intro table isNew
      have new := grown.fresh table (grown.tables_taken table isNew)
      have small := new.small
      rw [new.pageOf_eq]
      omega

/-- The calls of `valloc` in a run. -/
def execValloc (c : Client) (pages : Nat) : Option Client :=
  c.exec (.valloc pages)

theorem run_valloc_nulls_le
    {requests : List Nat}
    (ran : Runs.run execValloc c requests = some last) :
    c.space.machine.nulls ≤ last.space.machine.nulls :=
  Runs.run_invariant
    (fun d => c.space.machine.nulls ≤ d.space.machine.nulls)
    (fun _ _ _ below stepped => below.trans (exec_nulls_le stepped))
    le_rfl ran

/-- A run of `valloc` each of which spares the pages of the loader keeps their
translations. -/
theorem Inv.run_spares
    {boot : BootPages} {requests : List Nat}
    (inv : Inv maxPages fits root c)
    (spares : Runs.Along execValloc
      (fun c pages => ∀ address, boot.Contains address →
        c.Spares address pages) c requests)
    (ran : Runs.run execValloc c requests = some last)
    (enough : last.space.machine.nulls = c.space.machine.nulls)
    {address : Word}
    (contains : boot.Contains address) :
    last.space.machine.translateAddr address root =
      c.space.machine.translateAddr address root := by
  induction requests generalizing c with
  | nil =>
      obtain rfl : c = last := by simpa using ran
      rfl
  | cons pages requests inductionHypothesis =>
      obtain ⟨next, stepped, rest⟩ := Runs.run_cons.mp ran
      have before : c.space.machine.nulls ≤ next.space.machine.nulls :=
        exec_nulls_le stepped
      have after := run_valloc_nulls_le rest
      have kept := inv.valloc_spares (boot.le_pageOf contains)
        (spares.1 address contains) stepped (by omega)
      rw [← kept]
      exact inductionHypothesis (inv.valloc stepped (by omega))
        (spares.2 next stepped) rest (by omega)

/-- After `init_vmm`, in every run of `valloc` in which each call finds its
first run of free blocks away from the pages of the loader, and in which no
`alloc_frame` fails, no translation of such a page changes. -/
theorem boot_pages_kept
    (start first : Space) (last : Client) (maxPages : Nat)
    (boot : BootPages) (requests : List Nat)
    (fits : maxPages < 2 ^ 35)
    (tree : start.machine.Tree start.vi.p4Tbl)
    (marks : start.machine.pmm.Marks)
    (initialised : start.initVmm .supervisor maxPages = some first)
    (ran : Runs.run execValloc ⟨first, []⟩ requests = some last)
    (enough : last.space.machine.nulls = start.machine.nulls)
    (spares : Runs.Along execValloc
      (fun c pages => ∀ address, boot.Contains address →
        c.Spares address pages) ⟨first, []⟩ requests) :
    ∀ address, boot.Contains address →
      last.space.machine.translateAddr address start.vi.p4Tbl =
        first.machine.translateAddr address start.vi.p4Tbl := by
  intro address contains
  obtain ⟨machine, mapped, rfl⟩ := Option.map_eq_some_iff.mp initialised
  have before := (Machine.mapFrames_advances mapped).nulls_le
  have after : machine.nulls ≤ last.space.machine.nulls :=
    run_valloc_nulls_le ran
  have inv := initVmm_inv fits tree marks initialised (by
    simp only
    omega)
  exact inv.run_spares spares ran (by
    simp only
    omega) contains

/-- The sample machine with its boot stack, frame 2, mapped in the higher
half. -/
def loadedMachine : Machine :=
  (Machine.mapAddr 0x2000#64 (vaddr 0x2000#64) kernelPtEntry 0x1000#64
    Machine.sampleMachine).getD Machine.sampleMachine

/-- The kernel's VMM before `init_vmm`. -/
def loadedSpace : Space := { sampleSpace with machine := loadedMachine }

/-- The boot stack in frame 2, and no kernel entries. -/
def loadedPages : BootPages where
  stack := 0x2000#64
  ke := 0#64
  kePages := 0
  fits := by decide

theorem loadedMachine_maps :
    Machine.Maps 0x1000#64 0x2000#64 (vaddr 0x2000#64) kernelPtEntry
      Machine.sampleMachine loadedMachine := by
  obtain ⟨machine, mapped⟩ := Option.isSome_iff_exists.mp
    (Machine.mapAddr_isSome (s := Machine.sampleMachine) (by decide)
      Machine.sampleMachine_marks 0x2000#64 (vaddr 0x2000#64) kernelPtEntry
      0x1000#64)
  have loaded : machine = loadedMachine := by
    rw [loadedMachine, mapped, Option.getD_some]
  have counted : (Machine.mapAddr 0x2000#64 (vaddr 0x2000#64) kernelPtEntry
      0x1000#64 Machine.sampleMachine).map Machine.nulls = some 0 := by
    decide +kernel
  rw [mapped] at counted
  rw [← loaded]
  exact Machine.mapAddr_maps Machine.sampleMachine_tree
    Machine.sampleMachine_marks (by decide) (by decide) mapped
    (Option.some.inj counted)

theorem loadedMachine_tree : loadedMachine.Tree 0x1000#64 := by
  obtain ⟨tables, grown, -⟩ := loadedMachine_maps
  exact grown.tree

theorem loadedMachine_marks : loadedMachine.pmm.Marks := by
  obtain ⟨tables, grown, -⟩ := loadedMachine_maps
  exact grown.marks Machine.sampleMachine_marks

theorem boot_pages_kept_sample :
    ∃ first last, loadedSpace.initVmm .supervisor 8 = some first ∧
      Runs.run execValloc ⟨first, []⟩ [1] = some last ∧
      last.space.machine.translateAddr (vaddr 0x2000#64) 0x1000#64 =
        first.machine.translateAddr (vaddr 0x2000#64) 0x1000#64 := by
  have ran : ((loadedSpace.initVmm .supervisor 8).bind fun first =>
      (Runs.run execValloc ⟨first, []⟩ [1]).map fun last =>
        (last.space.machine.nulls, first.vi.bm,
          getBm first.mem first.vi.bm.bm 1)) =
      some (loadedMachine.nulls, ⟨32768, 4096, 1, 1, 0xFFFF800000000000⟩,
        0#8) := by
    decide +kernel
  obtain ⟨first, initialised, ran⟩ := Option.bind_eq_some_iff.mp ran
  obtain ⟨last, ran, observed⟩ := Option.map_eq_some_iff.mp ran
  simp only [Prod.mk.injEq] at observed
  obtain ⟨noNull, record, free⟩ := observed
  refine ⟨first, last, initialised, ran, ?_⟩
  refine boot_pages_kept loadedSpace first last 8 loadedPages [1] (by decide)
    loadedMachine_tree loadedMachine_marks initialised ran noNull ?_ _
    (Or.inl rfl)
  refine ⟨?_, fun _ _ => trivial⟩
  rintro address (rfl | ⟨i, none, -⟩)
  · -- Block 1 is free, so the first fit is not behind it.
    intro block fit inside
    rw [show windowBlock (vaddr loadedPages.stack) = 2 by decide] at inside
    have start : first.vi.bm.ffa = 1 := by rw [record]
    have total : first.vi.bm.tblocks = 8 := by
      rw [record]
      decide
    refine fit.least 1 (by rw [start]) (by omega)
      ⟨⟨by rw [total]; decide, free⟩, ?_⟩
    intro offset below
    obtain rfl : offset = 0 := by omega
    exact ⟨by rw [total]; decide, free⟩
  · exact absurd none (Nat.not_lt_zero i)

/-- With the boot stack in frame 2, the second page that `valloc` hands out is
mapped over it. -/
theorem boot_stack_replaced :
    ¬ ∀ (start first : Space) (last : Client) (maxPages : Nat)
      (boot : BootPages) (requests : List Nat),
      maxPages < 2 ^ 35 → start.machine.Tree start.vi.p4Tbl →
      start.machine.pmm.Marks →
      start.initVmm .supervisor maxPages = some first →
      Runs.run execValloc ⟨first, []⟩ requests = some last →
      last.space.machine.nulls = start.machine.nulls →
        ∀ address, boot.Contains address →
          last.space.machine.translateAddr address start.vi.p4Tbl =
            first.machine.translateAddr address start.vi.p4Tbl := by
  intro claim
  have ran : ((loadedSpace.initVmm .supervisor 8).bind fun first =>
      (Runs.run execValloc ⟨first, []⟩ [1, 1]).map fun last =>
        (last.space.machine.nulls,
          first.machine.translateAddr (vaddr 0x2000#64) 0x1000#64,
          last.space.machine.translateAddr (vaddr 0x2000#64) 0x1000#64)) =
      some (loadedMachine.nulls, 0x2000#64, 0xb000#64) := by
    decide +kernel
  obtain ⟨first, initialised, ran⟩ := Option.bind_eq_some_iff.mp ran
  obtain ⟨last, ran, observed⟩ := Option.map_eq_some_iff.mp ran
  simp only [Prod.mk.injEq] at observed
  obtain ⟨noNull, before, after⟩ := observed
  have kept : last.space.machine.translateAddr (vaddr 0x2000#64) 0x1000#64 =
      first.machine.translateAddr (vaddr 0x2000#64) 0x1000#64 :=
    claim loadedSpace first last 8 loadedPages [1, 1] (by decide)
      loadedMachine_tree loadedMachine_marks initialised ran noNull _
      (Or.inl rfl)
  rw [before, after] at kept
  exact absurd kept (by decide)

end Client
end PivotOs
