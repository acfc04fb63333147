import PivotOs.Heap.Owner
import PivotOs.Paging.Confined
import PivotOs.Vmm.Backing

/-!
# The heap in a second page table

`map_heap` maps every page of every region of a heap in another page table, at
the frame that the first page table gives it.  It finds the pages of a region
from the address and the size in the record of its bitmap, and these are the
pages that `heap_add` has taken.
-/

namespace PivotOs

open Paging Bitmap

namespace Machine

variable {s next last : Machine} {src dest : Word} {pages : Set Nat}

/-- Two page tables give some pages of the higher half the same frames. -/
structure Sharing (src dest : Word) (pages : Set Nat) (s : Machine) : Prop where
  apart : Apart src dest s
  high : ∀ page ∈ pages, 2 ^ 35 ≤ page
  same : ∀ address, pageOf address ∈ pages →
    s.translateAddr address dest = s.translateAddr address src

/-- What an entry keeps of a translation is the translation. -/
theorem alignAddr_translateAddr
    (s : Machine) (address root : Word)
    (notNull : root ≠ 0#64) :
    alignAddr (s.translateAddr address root) &&& signMask =
      s.translateAddr address root := by
  rw [translateAddr_eq address notNull]
  have aligned : (s.leafAt root address &&& signMask).toNat % 4096 = 0 := by
    rw [and_signMask_toNat]
    omega
  rw [alignAddr_of_aligned aligned, BitVec.and_assoc, BitVec.and_self]

/-- Pages are translated by their leaves. -/
theorem translateAddr_of_pageOf_eq
    {left right root : Word}
    (s : Machine)
    (notNull : root ≠ 0#64)
    (same : pageOf left = pageOf right) :
    s.translateAddr left root = s.translateAddr right root := by
  rw [translateAddr_eq left notNull, translateAddr_eq right notNull,
    leafAt_eq_of_pageOf_eq same]

/-- One round of the inner loop of `map_heap`. -/
theorem Sharing.insert
    {virtual : Word}
    (sharing : Sharing src dest pages s)
    (high : 2 ^ 35 ≤ pageOf virtual)
    (mapped : s.translateAddr virtual src ≠ 0#64)
    (ran : mapAddr (s.translateAddr virtual src) virtual kernelPtEntry dest s =
      some next)
    (enough : next.nulls = s.nulls) :
    Spares src dest s next ∧
      Sharing src dest (Insert.insert (pageOf virtual) pages) next := by
  have apart := sharing.apart
  have virtual_ne : virtual ≠ 0#64 := by
    rintro rfl
    exact absurd high (by decide)
  have spares := mapAddr_spares apart mapped virtual_ne ran enough
  have maps := mapAddr_maps apart.target apart.marks mapped virtual_ne ran enough
  have here := maps.translateAddr_self (by decide)
  rw [alignAddr_translateAddr _ _ _ apart.source.root_ne_zero] at here
  obtain ⟨tables, grown, -⟩ := maps
  refine ⟨spares, spares.apart, ?_, ?_⟩
  · rintro page (rfl | member)
    · exact high
    · exact sharing.high page member
  · intro address member
    rw [spares.translateAddr_eq]
    by_cases own : pageOf address = pageOf virtual
    · rw [translateAddr_of_pageOf_eq next apart.target.root_ne_zero own,
        translateAddr_of_pageOf_eq s apart.source.root_ne_zero own, here]
    · have old := member.resolve_left own
      -- New tables are mapped in the lower half.
      have different : ∀ table ∈ tables, pageOf address ≠ pageOf table := by
        intro table isNew equal
        have fresh := grown.fresh table isNew
        have small := fresh.small
        rw [← fresh.pageOf_eq, ← equal] at small
        have above := sharing.high _ old
        omega
      rw [grown.translateAddr_other (by simpa using own) different]
      exact sharing.same address old

section Region

variable {start : Word} {count : Nat}

theorem mapRegion_advances
    (ran : mapRegion src dest start count s = some next) :
    Advances s next := by
  induction count generalizing next with
  | zero =>
      obtain rfl := Option.some.inj ran
      exact Advances.refl s
  | succ count inductionHypothesis =>
      obtain ⟨middle, before, step⟩ := Option.bind_eq_some_iff.mp ran
      exact (inductionHypothesis before).trans (mapAddr_advances step)

theorem mapRegion_isSome
    (short : s.pmm.bitmapEntries < 2 ^ 16)
    (marks : s.pmm.Marks) :
    (mapRegion src dest start count s).isSome := by
  induction count with
  | zero => rfl
  | succ count inductionHypothesis =>
      obtain ⟨middle, ran⟩ := Option.isSome_iff_exists.mp inductionHypothesis
      have marked := (mapRegion_advances ran).marked
      rw [mapRegion, ran]
      exact mapAddr_isSome (lt_of_eq_of_lt marked.entries_eq short)
        (marked.marks marks) _ _ _ _

/-- The inner loop of `map_heap`. -/
theorem Sharing.mapRegion
    (sharing : Sharing src dest pages s)
    (high : ∀ i, i < count → 2 ^ 35 ≤ pageOf (Pmm.pageAddress start i))
    (mapped : ∀ i, i < count →
      s.translateAddr (Pmm.pageAddress start i) src ≠ 0#64)
    (ran : Machine.mapRegion src dest start count s = some next)
    (enough : next.nulls = s.nulls) :
    Spares src dest s next ∧
      Sharing src dest (pages ∪ loopPages start count) next := by
  induction count generalizing next with
  | zero =>
      obtain rfl := Option.some.inj ran
      have none : loopPages start 0 = ∅ := by
        simp [loopPages]
      rw [none, Set.union_empty]
      exact ⟨Spares.refl sharing.apart, sharing⟩
  | succ count inductionHypothesis =>
      obtain ⟨middle, before, step⟩ := Option.bind_eq_some_iff.mp ran
      have nulls1 := (mapRegion_advances before).nulls_le
      have nulls2 := (mapAddr_advances step).nulls_le
      obtain ⟨spares, shared⟩ := inductionHypothesis
        (fun i below => high i (by omega)) (fun i below => mapped i (by omega))
        before (by omega)
      have there := mapped count (Nat.lt_succ_self count)
      rw [← spares.translateAddr_eq] at there
      obtain ⟨sparesLast, sharedLast⟩ := shared.insert
        (high count (Nat.lt_succ_self count)) there step (by omega)
      refine ⟨spares.trans sparesLast, ?_⟩
      rwa [loopPages_succ, Set.union_insert]

end Region

/-- The pages that `map_heap` goes through. -/
def heapPageSet (chain : List Bitmap) : Set Nat :=
  {page | ∃ b ∈ chain, page ∈ loopPages (heapStart b) (heapPages b)}

theorem heapPageSet_cons (b : Bitmap) (chain : List Bitmap) :
    heapPageSet (b :: chain) =
      loopPages (heapStart b) (heapPages b) ∪ heapPageSet chain := by
  ext page
  simp [heapPageSet]

theorem mapHeap_advances
    {chain : List Bitmap}
    (ran : mapHeap src dest chain s = some next) :
    Advances s next := by
  induction chain generalizing s with
  | nil =>
      obtain rfl := Option.some.inj ran
      exact Advances.refl s
  | cons b chain inductionHypothesis =>
      obtain ⟨middle, first, rest⟩ := Option.bind_eq_some_iff.mp ran
      exact (mapRegion_advances first).trans (inductionHypothesis rest)

theorem mapHeap_isSome
    (chain : List Bitmap)
    (short : s.pmm.bitmapEntries < 2 ^ 16)
    (marks : s.pmm.Marks) :
    (mapHeap src dest chain s).isSome := by
  induction chain generalizing s with
  | nil => rfl
  | cons b chain inductionHypothesis =>
      have returns : (mapRegion src dest (heapStart b) (heapPages b) s).isSome :=
        mapRegion_isSome short marks
      obtain ⟨middle, ran⟩ := Option.isSome_iff_exists.mp returns
      have marked := (mapRegion_advances ran).marked
      rw [mapHeap, ran]
      exact inductionHypothesis (lt_of_eq_of_lt marked.entries_eq short)
        (marked.marks marks)

/-- `map_heap` on pages that are mapped in the first page table. -/
theorem Sharing.mapHeap
    {chain : List Bitmap}
    (sharing : Sharing src dest pages s)
    (high : ∀ page ∈ heapPageSet chain, 2 ^ 35 ≤ page)
    (mapped : ∀ address, pageOf address ∈ heapPageSet chain →
      s.translateAddr address src ≠ 0#64)
    (ran : Machine.mapHeap src dest chain s = some next)
    (enough : next.nulls = s.nulls) :
    Spares src dest s next ∧
      Sharing src dest (pages ∪ heapPageSet chain) next := by
  induction chain generalizing s pages with
  | nil =>
      obtain rfl := Option.some.inj ran
      have none : heapPageSet [] = ∅ := by
        simp [heapPageSet]
      rw [none, Set.union_empty]
      exact ⟨Spares.refl sharing.apart, sharing⟩
  | cons b chain inductionHypothesis =>
      obtain ⟨middle, first, rest⟩ := Option.bind_eq_some_iff.mp ran
      have nulls1 := (mapRegion_advances first).nulls_le
      have nulls2 := (mapHeap_advances rest).nulls_le
      rw [heapPageSet_cons] at high mapped ⊢
      obtain ⟨spares, shared⟩ := sharing.mapRegion
        (fun i below => high _ (.inl ⟨i, below, rfl⟩))
        (fun i below => mapped _ (.inl ⟨i, below, rfl⟩)) first (by omega)
      obtain ⟨sparesLast, sharedLast⟩ := inductionHypothesis shared
        (fun page member => high page (.inr member))
        (fun address member => by
          rw [spares.translateAddr_eq]
          exact mapped address (.inr member)) rest (by omega)
      refine ⟨spares.trans sparesLast, ?_⟩
      rwa [Set.union_assoc] at sharedLast

end Machine

/-! ## The pages of a heap -/

/-- `map_heap` finds the start of a region and the number of its pages. -/
theorem HeapRegion.Sound.extent
    {r : Region} {mem : Memory} {g : HeapRegion}
    (sound : g.Sound r mem) :
    Machine.heapStart g.bm = BitVec.ofNat 64 g.range.ptr ∧
      Machine.heapPages g.bm = g.range.blocks pageSize := by
  have size_eq : g.bm.size = r.size := sound.pool.size_eq
  have bm_eq : g.bm.bm = r.base := sound.pool.bm_eq
  have fits := r.fits
  have base := sound.base_eq
  have last := sound.end_eq
  have bytes : r.size + heapHeader = g.range.blocks pageSize * pageSize := by
    omega
  constructor
  · rw [Machine.heapStart, bm_eq, base,
      wrapSub_of_le (by omega) (Nat.le_add_left _ _), Nat.add_sub_cancel]
  · have small : r.size + heapHeader + (pageSize - 1) < 2 ^ 64 := by
      rw [heapHeader] at base bytes ⊢
      rw [pageSize] at bytes ⊢
      omega
    rw [Machine.heapPages, size_eq, divCeil, wrap_of_lt small, bytes]
    rw [pageSize]
    omega

namespace Heap

/-- The user of the address space behind a heap. -/
def client (h : Heap) : Client where
  space := h.space
  live := h.ranges

variable {maxPages : Nat} {fits : maxPages < 2 ^ 35} {root : Word}
variable {h next last : Heap}

/-- What the user has, memory apart. -/
structure Agrees (h : Heap) (c : Client) : Prop where
  machine_eq : h.space.machine = c.space.machine
  vi_eq : h.space.vi = c.space.vi
  live_eq : h.ranges = c.live

/-- A new region is a range that `valloc` has returned. -/
theorem heapAdd_range
    {s : Space} {pages bsize : Nat} {result : Nat × Bitmap × Space}
    (added : s.heapAdd pages bsize = some result) :
    ∃ machine mem vi, s.valloc pages = some (result.1, ⟨machine, mem, vi⟩) ∧
      result.1 ≠ 0 ∧ result.2.2.machine = machine ∧ result.2.2.vi = vi := by
  obtain ⟨start, ⟨machine, mem, vi⟩, allocated, above, rfl⟩ :=
    Space.heapAdd_cases added
  have notNull : start ≠ 0 := by
    simp only [pageSize] at above
    omega
  exact ⟨machine, mem, vi, allocated, notNull, rfl, rfl⟩

theorem exec_add_agrees
    {pages bsize : Nat}
    (stepped : h.exec (.add pages bsize) = some next) :
    ∃ calls c, Runs.run Client.exec h.client calls = some c ∧
      next.Agrees c := by
  rw [exec] at stepped
  split at stepped
  · obtain ⟨new, added, rfl⟩ := Option.map_eq_some_iff.mp stepped
    obtain ⟨machine, mem, vi, allocated, notNull, machine_eq, vi_eq⟩ :=
      heapAdd_range added
    have step : h.client.exec (.valloc pages) =
        some ⟨⟨machine, mem, vi⟩,
          ⟨new.1, wrap (pages * pageSize)⟩ :: h.ranges⟩ := by
      rw [Client.exec, Heap.client, allocated, Option.map_some,
        if_neg notNull]
    exact ⟨[.valloc pages], _, Runs.run_cons.mpr ⟨_, step, rfl⟩, machine_eq,
      vi_eq, rfl⟩
  · simp at stepped

/-- A call on a heap takes or gives back a range, or leaves the address space
alone. -/
theorem exec_agrees
    {call : HeapCall}
    (stepped : h.exec call = some next) :
    ∃ calls c, Runs.run Client.exec h.client calls = some c ∧
      next.Agrees c := by
  cases call with
  | add pages bsize => exact exec_add_agrees stepped
  | alloc size =>
      obtain rfl := Option.some.inj stepped
      exact ⟨[], h.client, rfl, rfl, rfl, rfl⟩
  | free a =>
      rw [exec] at stepped
      split at stepped
      · obtain rfl := Option.some.inj stepped
        exact ⟨[], h.client, rfl, rfl, rfl, rfl⟩
      · cases stepped
  | realloc a size =>
      rw [exec] at stepped
      split at stepped
      · obtain ⟨new, -, rfl⟩ := Option.map_eq_some_iff.mp stepped
        exact ⟨[], h.client, rfl, rfl, rfl, rfl⟩
      · cases stepped
  | store address byte =>
      rw [exec] at stepped
      split at stepped
      · obtain rfl := Option.some.inj stepped
        exact ⟨[], h.client, rfl, rfl, rfl, rfl⟩
      · cases stepped
  | valloc pages =>
      obtain ⟨result, taken, rfl⟩ := Option.map_eq_some_iff.mp stepped
      refine ⟨[.valloc pages],
        { space := result.2
          live := if result.1 = 0 then h.ranges
            else ⟨result.1, wrap (pages * pageSize)⟩ :: h.ranges },
        Runs.run_cons.mpr ⟨_, ?_, rfl⟩, rfl, rfl, rfl⟩
      rw [Client.exec, Heap.client, taken]
      rfl
  | vfree a =>
      rw [exec] at stepped
      split at stepped
      · rename_i listed
        obtain rfl := Option.some.inj stepped
        refine ⟨[.vfree a],
          { space := h.space.vfree a.ptr, live := h.ranges.erase a },
          Runs.run_cons.mpr ⟨_, ?_, rfl⟩, rfl, rfl, rfl⟩
        exact if_pos listed.1
      · cases stepped

theorem exec_nulls_le
    {call : HeapCall}
    (stepped : h.exec call = some next) :
    h.space.machine.nulls ≤ next.space.machine.nulls := by
  obtain ⟨calls, c, ran, agrees⟩ := exec_agrees stepped
  rw [agrees.machine_eq]
  exact Client.run_nulls_le ran

/-- A heap, and its ranges mapped, each page to a frame of its own. -/
structure Mapped (maxPages : Nat) (fits : maxPages < 2 ^ 35) (root : Word)
    (h : Heap) : Prop where
  inv : Inv (kernelWindow maxPages fits) h
  client : Client.Inv maxPages fits root h.client

theorem Mapped.exec
    {call : HeapCall}
    (mapped : Mapped maxPages fits root h)
    (stepped : h.exec call = some next)
    (enough : next.space.machine.nulls = h.space.machine.nulls) :
    Mapped maxPages fits root next := by
  obtain ⟨calls, c, ran, agrees⟩ := exec_agrees stepped
  rw [agrees.machine_eq] at enough
  have after := mapped.client.run ran enough
  have inv := mapped.inv.exec stepped
  refine ⟨inv, inv.vmm, ?_, ?_, ?_, ?_⟩
  · rw [Heap.client, agrees.vi_eq]
    exact after.p4Tbl_eq
  · rw [Heap.client, agrees.vi_eq]
    exact after.flags_eq
  · rw [Heap.client, agrees.live_eq]
    exact after.blocks_pos
  · rw [Heap.client, agrees.machine_eq, agrees.live_eq]
    exact after.owns

theorem run_nulls_le
    {calls : List HeapCall}
    (ran : Runs.run Heap.exec h calls = some last) :
    h.space.machine.nulls ≤ last.space.machine.nulls :=
  Runs.run_invariant
    (fun next : Heap => h.space.machine.nulls ≤ next.space.machine.nulls)
    (fun _ _ _ before stepped => before.trans (exec_nulls_le stepped)) le_rfl
    ran

theorem Mapped.run
    {calls : List HeapCall}
    (mapped : Mapped maxPages fits root h)
    (ran : Runs.run Heap.exec h calls = some last)
    (enough : last.space.machine.nulls = h.space.machine.nulls) :
    Mapped maxPages fits root last := by
  induction calls generalizing h with
  | nil =>
      obtain rfl : h = last := by simpa using ran
      exact mapped
  | cons call calls inductionHypothesis =>
      obtain ⟨next, stepped, rest⟩ := Runs.run_cons.mp ran
      have before := exec_nulls_le stepped
      have after := run_nulls_le rest
      exact inductionHypothesis (mapped.exec stepped (by omega)) rest (by omega)

theorem onVmm_mapped
    {start first : Space}
    (fits : maxPages < 2 ^ 35)
    (tree : start.machine.Tree start.vi.p4Tbl)
    (marks : start.machine.pmm.Marks)
    (initialised : start.initVmm .supervisor maxPages = some first)
    (enough : first.machine.nulls = start.machine.nulls) :
    Mapped maxPages fits start.vi.p4Tbl (onVmm first) where
  inv := onVmm_inv (kernelWindow maxPages fits).fits initialised
  client := Client.initVmm_inv fits tree marks initialised enough

/-- The pages that `map_heap` goes through are those of the regions. -/
theorem Mapped.mem_heapPageSet_iff
    {page : Nat}
    (mapped : Mapped maxPages fits root h) :
    page ∈ Machine.heapPageSet (h.chain.map HeapRegion.bm) ↔
      ∃ g ∈ h.chain, ∃ i, i < g.range.blocks pageSize ∧
        page = pageOf (Client.pageAt g.range i) := by
  constructor
  · rintro ⟨b, member, i, below, rfl⟩
    obtain ⟨g, listed, rfl⟩ := List.mem_map.mp member
    obtain ⟨r, sound⟩ := mapped.inv.sound g listed
    obtain ⟨start_eq, pages_eq⟩ := sound.extent
    rw [pages_eq] at below
    refine ⟨g, listed, i, below, ?_⟩
    rw [start_eq]
    rfl
  · rintro ⟨g, listed, i, below, rfl⟩
    obtain ⟨r, sound⟩ := mapped.inv.sound g listed
    obtain ⟨start_eq, pages_eq⟩ := sound.extent
    refine ⟨g.bm, List.mem_map_of_mem listed, i, by rwa [pages_eq], ?_⟩
    rw [start_eq]
    rfl

/-- They belong to the ranges of the heap. -/
theorem Mapped.mem_livePages
    {g : HeapRegion} {i : Nat}
    (mapped : Mapped maxPages fits root h)
    (listed : g ∈ h.chain)
    (below : i < g.range.blocks pageSize) :
    pageOf (Client.pageAt g.range i) ∈ Client.livePages h.ranges :=
  ⟨g.range, mapped.inv.listed g listed, i, below, rfl⟩

/-- After `map_heap` both page tables translate every page of every region of a
heap to the same frame, and the first translates every address as before. -/
theorem mapHeap_shares
    (maxPages : Nat) (fits : maxPages < 2 ^ 35)
    (start first : Space) (calls : List HeapCall) (last : Heap)
    (dest : Word) (s : Machine)
    (tree : start.machine.Tree start.vi.p4Tbl)
    (marks : start.machine.pmm.Marks)
    (initialised : start.initVmm .supervisor maxPages = some first)
    (ran : Runs.run exec (onVmm first) calls = some last)
    (enough : last.space.machine.nulls = start.machine.nulls)
    (apart : Machine.Apart start.vi.p4Tbl dest s)
    (kept : ∀ g ∈ last.chain, ∀ i, i < g.range.blocks pageSize →
      s.translateAddr (Client.pageAt g.range i) start.vi.p4Tbl =
        last.space.machine.translateAddr (Client.pageAt g.range i)
          start.vi.p4Tbl) :
    (s.pmm.bitmapEntries < 2 ^ 16 →
      (s.mapHeap start.vi.p4Tbl dest
        (last.chain.map HeapRegion.bm)).isSome) ∧
    ∀ next, s.mapHeap start.vi.p4Tbl dest (last.chain.map HeapRegion.bm) =
        some next → next.nulls = s.nulls →
      (∀ g ∈ last.chain, ∀ i, i < g.range.blocks pageSize →
        next.translateAddr (Client.pageAt g.range i) dest =
          next.translateAddr (Client.pageAt g.range i) start.vi.p4Tbl) ∧
      ∀ address, next.translateAddr address start.vi.p4Tbl =
        s.translateAddr address start.vi.p4Tbl := by
  refine ⟨fun short => Machine.mapHeap_isSome _ short apart.marks, ?_⟩
  intro next shared noNull
  have before := Client.initVmm_nulls_le initialised
  have after := run_nulls_le ran
  change first.machine.nulls ≤ last.space.machine.nulls at after
  have mapped := (onVmm_mapped fits tree marks initialised (by omega)).run ran
    (show last.space.machine.nulls = first.machine.nulls by omega)
  have notNull := tree.root_ne_zero
  have high : ∀ page ∈ Machine.heapPageSet (last.chain.map HeapRegion.bm),
      2 ^ 35 ≤ page := by
    intro page member
    obtain ⟨g, listed, i, below, rfl⟩ := mapped.mem_heapPageSet_iff.mp member
    exact mapped.client.owns.high _ (mapped.mem_livePages listed below)
  have inSource : ∀ address,
      pageOf address ∈ Machine.heapPageSet (last.chain.map HeapRegion.bm) →
        s.translateAddr address start.vi.p4Tbl ≠ 0#64 := by
    intro address member
    obtain ⟨g, listed, i, below, same⟩ := mapped.mem_heapPageSet_iff.mp member
    rw [Machine.translateAddr_of_pageOf_eq s notNull same,
      kept g listed i below]
    exact mapped.client.owns.ne_zero _ (mapped.mem_livePages listed below)
  have empty : Machine.Sharing start.vi.p4Tbl dest ∅ s :=
    { apart := apart, high := by simp, same := by simp }
  obtain ⟨spares, sharing⟩ := empty.mapHeap high inSource shared noNull
  refine ⟨fun g listed i below => sharing.same _ (.inr ?_),
    spares.translateAddr_eq⟩
  exact mapped.mem_heapPageSet_iff.mpr ⟨g, listed, i, below, rfl⟩

/-- Two regions, the first of two pages. -/
def sampleRegions : List HeapCall :=
  [.add 2 heapDefaultBs, .add 1 heapDefaultBs]

/-- They are mapped in a page table that has just been made. -/
theorem mapHeap_shares_sample :
    ∃ first last dest allocated next,
      Client.sampleSpace.initVmm .supervisor 8 = some first ∧
      Runs.run exec (onVmm first) sampleRegions = some last ∧
      last.chain.map HeapRegion.range =
        [⟨0xFFFF800000003000, 4096⟩, ⟨0xFFFF800000001000, 8192⟩] ∧
      last.space.machine.allocFrame = some (dest, allocated) ∧
      (allocated.cleanTable dest).mapHeap 0x1000#64 dest
        (last.chain.map HeapRegion.bm) = some next ∧
      ∀ g ∈ last.chain, ∀ i, i < g.range.blocks pageSize →
        next.translateAddr (Client.pageAt g.range i) dest =
          next.translateAddr (Client.pageAt g.range i) 0x1000#64 := by
  have observed : (((Client.sampleSpace.initVmm .supervisor 8).bind fun first =>
      Runs.run exec (onVmm first) sampleRegions).bind fun last =>
        last.space.machine.allocFrame.bind fun result =>
          ((result.2.cleanTable result.1).mapHeap 0x1000#64 result.1
            (last.chain.map HeapRegion.bm)).map fun next =>
              (last.chain.map HeapRegion.range, last.space.machine.nulls,
                result.2.nulls, next.nulls)) =
      some ([⟨0xFFFF800000003000, 4096⟩, ⟨0xFFFF800000001000, 8192⟩], 0, 0, 0) :=
    by decide +kernel
  obtain ⟨last, both, rest⟩ := Option.bind_eq_some_iff.mp observed
  obtain ⟨first, initialised, ran⟩ := Option.bind_eq_some_iff.mp both
  obtain ⟨⟨dest, allocated⟩, answered, mapped⟩ := Option.bind_eq_some_iff.mp rest
  obtain ⟨next, shared, values⟩ := Option.map_eq_some_iff.mp mapped
  obtain ⟨ranges, values⟩ := Prod.mk.inj values
  obtain ⟨nulls1, values⟩ := Prod.mk.inj values
  obtain ⟨nulls2, nulls3⟩ := Prod.mk.inj values
  have before := Client.initVmm_nulls_le initialised
  have after := run_nulls_le ran
  change first.machine.nulls ≤ last.space.machine.nulls at after
  have heap := (onVmm_mapped (by decide) Machine.sampleMachine_tree
    Machine.sampleMachine_marks initialised (by omega)).run ran
      (show last.space.machine.nulls = first.machine.nulls by omega)
  have spares := Machine.Spares.of_allocFrame heap.client.owns.tree
    heap.client.owns.marks answered (nulls2.trans nulls1.symm)
  obtain ⟨-, shares⟩ := mapHeap_shares 8 (by decide) Client.sampleSpace first
    sampleRegions last dest (allocated.cleanTable dest)
    Machine.sampleMachine_tree Machine.sampleMachine_marks initialised ran nulls1
    spares.apart fun g _ i _ => spares.translateAddr_eq _
  exact ⟨first, last, dest, allocated, next, initialised, ran, ranges, answered,
    shared, (shares next shared (nulls3.trans nulls2.symm)).1⟩

end Heap
end PivotOs
