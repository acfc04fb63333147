import PivotOs.Vmm.Exclusive

/-!
# What `vfree` gives back

`vfree` should undo `valloc` but for the page tables made on the way.  It asks
`bm_free` for the length of the range and gets the length of one block, and it
leaves the entries of the page tables as they are.  So the frame of the first
page is marked free while the page still translates to it, and the other frames
stay taken.
-/

namespace PivotOs

open Paging Bitmap

/-- The pages that a VMM of either level hands out. -/
def VmmLevel.window (level : VmmLevel) (maxPages : Nat)
    (fits : level.base + maxPages * pageSize < 2 ^ 64) : Region where
  base := level.base
  size := maxPages * pageSize
  bsize := pageSize
  bsize_pos := pageSize_pos
  above_null := by cases level <;> decide
  fits := fits

namespace Machine

variable {s next : Machine} {start flags p4Tbl : Word} {count : Nat}

/-- The answers of `alloc_frame` between two states. -/
def allocsSince (s next : Machine) : List Word :=
  next.allocs.take (next.allocs.length - s.allocs.length)

/-- The frames that the rounds of `valloc` take for the pages, newest first. -/
def loopFrames (start flags p4Tbl : Word) : (count : Nat) → Machine → List Word
  | 0, _ => []
  | count + 1, s =>
      match (mapFrames start flags p4Tbl count s).bind allocFrame with
      | none => []
      | some result => result.1 :: loopFrames start flags p4Tbl count s

/-- Some frame that was free is taken for a page, and stays marked. -/
theorem exists_mem_loopFrames
    (marks : s.pmm.Marks)
    (some_pages : count ≠ 0)
    (mapped : mapFrames start flags p4Tbl count s = some next)
    (enough : next.nulls = s.nulls) :
    ∃ frame ∈ loopFrames start flags p4Tbl count s,
      s.pmm.Free (frameOf frame) ∧ next.pmm.Used (frameOf frame) := by
  obtain ⟨count, rfl⟩ := Nat.exists_eq_succ_of_ne_zero some_pages
  obtain ⟨middle, earlier, round⟩ := Option.bind_eq_some_iff.mp mapped
  have advances := mapFrames_advances earlier
  have before := advances.nulls_le
  have after := (mapFrame_advances round).nulls_le
  obtain ⟨frame, allocated, answered, free, used, -⟩ :=
    mapFrame_takes (advances.marked.marks marks) round (by omega)
  refine ⟨frame, ?_, advances.marked.free free, used⟩
  rw [loopFrames, earlier, Option.bind_some, answered]
  exact List.mem_cons_self

theorem clearFrames_tables (s : Machine) (start p4Tbl : Word) (count : Nat) :
    (s.clearFrames start p4Tbl count).tables = s.tables ∧
      (s.clearFrames start p4Tbl count).pml4 = s.pml4 := by
  induction count with
  | zero => exact ⟨rfl, rfl⟩
  | succ count inductionHypothesis => exact inductionHypothesis

/-- Giving frames back changes no translation. -/
theorem clearFrames_translateAddr
    (s : Machine) (start p4Tbl : Word) (count : Nat) (address root : Word) :
    (s.clearFrames start p4Tbl count).translateAddr address root =
      s.translateAddr address root := by
  obtain ⟨tables_eq, pml4_eq⟩ := clearFrames_tables s start p4Tbl count
  rw [translateAddr, translateAddr, tables_eq, pml4_eq]

/-- The first round gives back what the first page translates to. -/
theorem used_clearFrames_one (s : Machine) (start p4Tbl : Word) (k : Nat) :
    (s.clearFrames start p4Tbl 1).pmm.Used k ↔
      s.pmm.Used k ∧
        ¬ (s.translateAddr (Pmm.pageAddress start 0) p4Tbl ≠ 0#64 ∧
          k = frameOf (s.translateAddr (Pmm.pageAddress start 0) p4Tbl)) :=
  Pmm.used_pmmClearBit _ k

end Machine

namespace Space

/-- `released` is `s` again but for the page tables that were made on the way
to `allocated`, and no page of the range leads to a free frame. -/
structure ReleasesRange (s allocated released : Space) (pages address : Nat) :
    Prop where
  /-- Bits differ only for frames that `map_addr` took for tables. -/
  bits : ∀ k,
    (released.machine.pmm.Used k ↔ s.machine.pmm.Used k) ∨
      ((∃ frame ∈ s.machine.allocsSince allocated.machine, frameOf frame = k) ∧
        ∀ frame ∈ Machine.loopFrames (BitVec.ofNat 64 address) s.vi.flags
          s.vi.p4Tbl pages s.machine, frameOf frame ≠ k)
  /-- Pages of the range have lost their frames, or kept them. -/
  settled : ∀ i, i < pages →
    let frame := released.machine.translateAddr
      (Pmm.pageAddress (BitVec.ofNat 64 address) i) released.vi.p4Tbl
    frame = 0#64 ∨ released.machine.pmm.Used (frameOf frame)

variable {s allocated : Space} {pages address : Nat}

/-- `init_vmm` leaves a fresh region. -/
theorem initVmm_reachable
    {level : VmmLevel} {maxPages : Nat} {start first : Space}
    (fits : level.base + maxPages * pageSize < 2 ^ 64)
    (initialised : start.initVmm level maxPages = some first) :
    Pool.Reachable (level.window maxPages fits) start.mem
      ⟨first.mem, first.vi.bm, []⟩ := by
  obtain ⟨machine, -, rfl⟩ := Option.map_eq_some_iff.mp initialised
  have size_eq : wrap (maxPages * pageSize) = maxPages * pageSize :=
    wrap_of_lt (by omega)
  refine ⟨[], ?_⟩
  rw [size_eq]
  rfl

/-- The two halves of a successful `valloc`. -/
theorem valloc_eq_some
    (some_pages : pages ≠ 0)
    (taken : s.valloc pages = some (address, allocated)) :
    ∃ machine,
      Machine.mapFrames (BitVec.ofNat 64 address) s.vi.flags s.vi.p4Tbl pages
          s.machine = some machine ∧
      address =
        (bmAlloc s.mem (wrap (pages * pageSize)) s.vi.bm).1 ∧
      allocated =
        { machine := machine
          mem := (bmAlloc s.mem (wrap (pages * pageSize)) s.vi.bm).2.1
          vi :=
            { s.vi with
              bm := (bmAlloc s.mem (wrap (pages * pageSize)) s.vi.bm).2.2 } } := by
  obtain ⟨none, -⟩ | ⟨-, machine, mapped, same⟩ := valloc_cases taken
  · exact absurd none some_pages
  · obtain ⟨rfl, rfl⟩ := Prod.mk.inj same
    exact ⟨machine, mapped, rfl, rfl⟩

/-- `bm_free` answers a range that was just handed out with the length of one
page. -/
theorem bmFree_after_valloc
    {r : Region} {live : List Allocation}
    (paged : r.bsize = pageSize)
    (inv : Pool.Inv r ⟨s.mem, s.vi.bm, live⟩)
    (few : pages ≤ 2 ^ 22)
    (some_pages : pages ≠ 0)
    (notNull : (bmAlloc s.mem (wrap (pages * pageSize)) s.vi.bm).1 ≠ 0) :
    (bmFree (bmAlloc s.mem (wrap (pages * pageSize)) s.vi.bm).2.1
      (bmAlloc s.mem (wrap (pages * pageSize)) s.vi.bm).1
      (bmAlloc s.mem (wrap (pages * pageSize)) s.vi.bm).2.2).1 = pageSize := by
  have next := inv.alloc (wrap (pages * pageSize)) rfl
  simp only [if_neg notNull] at next
  obtain ⟨block, placed⟩ := next.placed _ List.mem_cons_self
  have blocks : 0 < Allocation.blocks
      ⟨(bmAlloc s.mem (wrap (pages * pageSize)) s.vi.bm).1,
        wrap (pages * pageSize)⟩ r.bsize := by
    rw [Allocation.blocks, paged, (divCeil_pages few).2]
    exact Nat.pos_of_ne_zero some_pages
  exact (next.bmFree_result placed blocks).trans paged

/-- In no state of the VMM and of the frame bitmap does `vfree` undo a `valloc`
that got its pages and all its frames. -/
theorem never_releasesRange
    (level : VmmLevel) (maxPages : Nat)
    (fits : level.base + maxPages * pageSize < 2 ^ 64)
    (prior : Memory) (live : List Allocation)
    (s allocated : Space) (pages address : Nat)
    (reachable : Pool.Reachable (level.window maxPages fits) prior
      ⟨s.mem, s.vi.bm, live⟩)
    (marks : s.machine.pmm.Marks)
    (some_pages : 1 ≤ pages)
    (taken : s.valloc pages = some (address, allocated))
    (notNull : address ≠ 0)
    (enough : allocated.machine.nulls = s.machine.nulls) :
    ¬ ReleasesRange s allocated (allocated.vfree address) pages address := by
  intro releases
  have positive : pages ≠ 0 := Nat.one_le_iff_ne_zero.mp some_pages
  obtain ⟨machine, mapped, address_eq, rfl⟩ := valloc_eq_some positive taken
  have counted := Machine.mapFrames_freeCount marks mapped enough
  have few : pages ≤ 2 ^ 22 := by
    have bound := s.machine.pmm.freeCount_le
    omega
  obtain ⟨own, ownTaken, ownFree, ownUsed⟩ :=
    Machine.exists_mem_loopFrames marks positive mapped enough
  have length := bmFree_after_valloc rfl reachable.inv few positive
    (address_eq ▸ notNull)
  rw [← address_eq] at length
  have bits := releases.bits (frameOf own)
  have settled := releases.settled 0 some_pages
  simp only [vfree, length, Nat.div_self (show 0 < pageSize by decide),
    Machine.clearFrames_translateAddr, Machine.used_clearFrames_one]
    at bits settled
  by_cases null : machine.translateAddr
      (Pmm.pageAddress (BitVec.ofNat 64 address) 0) s.vi.p4Tbl = 0#64
  · -- Nothing is given back, so the frame of a page stays taken.
    cases bits with
    | inl same => exact ownFree.2 (same.mp ⟨ownUsed, fun here => here.1 null⟩)
    | inr table => exact table.2 own ownTaken rfl
  · -- The frame is given back, and the first page still leads to it.
    cases settled with
    | inl lost => exact null lost
    | inr kept => exact kept.2 ⟨null, trivial⟩

/-- Two pages on the sample machine. -/
theorem sample_valloc :
    ∃ first, Client.sampleSpace.initVmm .supervisor 8 = some first ∧
      first.machine.pmm.Marks ∧
      ∃ result, first.valloc 2 = some result ∧
        result.1 = 0xFFFF800000001000 ∧
        result.2.machine.nulls = first.machine.nulls ∧
        ¬ (let released := result.2.vfree result.1
          let frame := released.machine.translateAddr
            (Pmm.pageAddress (BitVec.ofNat 64 result.1) 0) released.vi.p4Tbl
          frame = 0#64 ∨ released.machine.pmm.Used (frameOf frame)) := by
  have observed : ((Client.sampleSpace.initVmm .supervisor 8).bind fun first =>
      (first.valloc 2).map fun result =>
        (result.1, decide (result.2.machine.nulls = first.machine.nulls),
          decide (let released := result.2.vfree result.1
            let frame := released.machine.translateAddr
              (Pmm.pageAddress (BitVec.ofNat 64 result.1) 0) released.vi.p4Tbl
            frame = 0#64 ∨ released.machine.pmm.Used (frameOf frame)))) =
      some (0xFFFF800000001000, true, false) := by decide +kernel
  obtain ⟨first, initialised, ran⟩ := Option.bind_eq_some_iff.mp observed
  obtain ⟨result, taken, same⟩ := Option.map_eq_some_iff.mp ran
  simp only [Prod.mk.injEq, decide_eq_true_eq, decide_eq_false_iff_not] at same
  obtain ⟨machine, mapped, rfl⟩ := Option.map_eq_some_iff.mp initialised
  refine ⟨_, initialised, ?_, result, taken, same.1, same.2.1, same.2.2⟩
  exact (Machine.mapFrames_advances mapped).marked.marks
    Machine.sampleMachine_marks

theorem never_releasesRange_sample :
    ∃ first allocated, Client.sampleSpace.initVmm .supervisor 8 = some first ∧
      first.valloc 2 = some (0xFFFF800000001000, allocated) ∧
      ¬ ReleasesRange first allocated (allocated.vfree 0xFFFF800000001000) 2
        0xFFFF800000001000 := by
  obtain ⟨first, initialised, marks, result⟩ := sample_valloc
  obtain ⟨⟨address, allocated⟩, taken, rfl, enough, -⟩ := result
  refine ⟨first, allocated, initialised, taken, ?_⟩
  exact never_releasesRange .supervisor 8 (by decide) _ [] first allocated 2 _
    (initVmm_reachable (by decide) initialised) marks (by decide) taken
    (by decide) enough

/-- After two pages have been handed out and given back, the first of them
still leads to its frame, which is free. -/
theorem freed_page_still_mapped :
    ¬ ∀ (level : VmmLevel) (maxPages : Nat)
      (fits : level.base + maxPages * pageSize < 2 ^ 64)
      (prior : Memory) (live : List Allocation)
      (s allocated : Space) (pages address : Nat),
      Pool.Reachable (level.window maxPages fits) prior
        ⟨s.mem, s.vi.bm, live⟩ →
      s.machine.pmm.Marks → 1 ≤ pages →
      s.valloc pages = some (address, allocated) → address ≠ 0 →
      allocated.machine.nulls = s.machine.nulls →
        ReleasesRange s allocated (allocated.vfree address) pages address := by
  intro always
  obtain ⟨first, initialised, marks, result⟩ := sample_valloc
  obtain ⟨⟨address, allocated⟩, taken, rfl, enough, dangling⟩ := result
  have releases := always .supervisor 8 (by decide) _ [] first allocated 2 _
    (initVmm_reachable (by decide) initialised) marks (by decide) taken
    (by decide) enough
  exact dangling (releases.settled 0 (by decide))

end Space

/-! ## Clients -/

namespace Client

variable {c next last : Client}

/-- A call of the VMM is a call of its bitmap, or changes nothing there. -/
theorem exec_pool
    {call : VmmCall}
    (stepped : c.exec call = some next) :
    next.pool = c.pool ∨ ∃ inner, c.pool.exec inner = some next.pool := by
  cases call with
  | valloc pages =>
      obtain ⟨result, allocated, rfl⟩ := Option.map_eq_some_iff.mp stepped
      obtain ⟨-, rfl⟩ | ⟨-, machine, -, rfl⟩ := Space.valloc_cases allocated
      · exact Or.inl rfl
      · exact Or.inr ⟨.alloc (wrap (pages * pageSize)), rfl⟩
  | vfree a =>
      rw [exec] at stepped
      split at stepped
      · rename_i member
        obtain rfl := Option.some.inj stepped
        refine Or.inr ⟨.free a, ?_⟩
        rw [Pool.exec]
        exact if_pos member
      · simp at stepped

/-- Every run of `valloc` and `vfree` after `init_vmm`, at either level, leaves
a reachable bitmap. -/
theorem run_reachable
    {level : VmmLevel} {maxPages : Nat} {start first : Space}
    {calls : List VmmCall}
    (fits : level.base + maxPages * pageSize < 2 ^ 64)
    (initialised : start.initVmm level maxPages = some first)
    (ran : Runs.run exec ⟨first, []⟩ calls = some last) :
    Pool.Reachable (level.window maxPages fits) start.mem last.pool := by
  refine Runs.run_invariant
    (fun c => Pool.Reachable (level.window maxPages fits) start.mem c.pool)
    ?_ (Space.initVmm_reachable fits initialised) ran
  intro c call next reached stepped
  cases exec_pool stepped with
  | inl same => exact same ▸ reached
  | inr inner =>
      obtain ⟨call, stepped⟩ := inner
      obtain ⟨calls, ran⟩ := reached
      exact ⟨calls ++ [call], Runs.run_append ran
        (Runs.run_cons.mpr ⟨_, stepped, rfl⟩)⟩

end Client
end PivotOs
