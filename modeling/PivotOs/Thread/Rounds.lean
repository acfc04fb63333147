import PivotOs.Thread.Window

/-!
# The three rounds

Each of the three frames of `populate` is mapped at a page of the window, or
nowhere when the window is full.  A round keeps the tables mapped at their own
addresses as long as its page is the page of no free frame, since every table
was made from a frame that was free before.  Once the tables of the window are
there, a round takes the one frame and no other, whichever page it maps.
-/

namespace PivotOs

open Paging Bitmap

namespace Paging

/-- The first 512 pages share their tables. -/
theorem tablePath_eq_low_iff {address : Word} :
    tablePath address = [0, 0, 0] ↔ pageOf address < 512 := by
  simp only [tablePath, List.cons.injEq, and_true, Fin.ext_iff, Fin.val_zero,
    p2Entry, p3Entry, p4Entry, entryIndex_val, pageOf, pageSize]
  omega

/-- A part of the way to the first pages that leads to a page leads to every
lower page. -/
theorem low_suffix_of_le
    {left right : Word} {path : List (Fin 512)}
    (le : pageOf left ≤ pageOf right)
    (low : path <:+ [0, 0, 0])
    (suffix : path <:+ tablePath right) :
    path <:+ tablePath left := by
  have cases : path = [0, 0, 0] ∨ path = [0, 0] ∨ path = [0] ∨ path = [] := by
    simpa [List.suffix_cons_iff] using low
  rcases cases with rfl | rfl | rfl | rfl
  all_goals
    simp only [tablePath, List.suffix_cons_iff, List.suffix_nil,
      List.cons.injEq, Fin.ext_iff, p2Entry, p3Entry, p4Entry, entryIndex_val,
      reduceCtorEq, and_true, and_false, or_false, false_or]
      at suffix ⊢
  all_goals
    unfold pageOf pageSize at le
    omega

end Paging

/-- The address of a page of the window. -/
def windowPage (page : Nat) : Word := BitVec.ofNat 64 (page * pageSize)

theorem pageOf_windowPage {page : Nat} (le : page ≤ 32) :
    pageOf (windowPage page) = page := by
  unfold pageOf windowPage pageSize
  rw [BitVec.toNat_ofNat]
  omega

theorem windowPage_ne_zero {page : Nat} (positive : 0 < page) (le : page ≤ 32) :
    windowPage page ≠ 0#64 := by
  intro null
  have page_eq := pageOf_windowPage le
  rw [null] at page_eq
  have zero : pageOf 0#64 = 0 := by decide
  omega

namespace Machine

variable {s next last start : Machine} {root virtual : Word}

/-- The three rounds one by one. -/
theorem rounds_eq_some_iff
    {heap stack : Nat}
    (mapped : 1 ≤ heap) :
    rounds (heap * pageSize) (stack * pageSize) root s = some last ↔
      ∃ s1 s2, mapFrame (windowPage 1) root s = some s1 ∧
        mapFrame (windowPage heap) root s1 = some s2 ∧
        mapFrame (windowPage stack) root s2 = some last := by
  have notNull : ¬ heap * pageSize < pageSize := by
    unfold pageSize
    omega
  rw [rounds]
  simp only [if_neg notNull, Option.bind_eq_some_iff, windowPage, Nat.one_mul,
    exists_and_left]

/-- The rounds fault when there is no page for the heap. -/
theorem not_lt_of_rounds
    {heap stack : Nat}
    (ran : rounds heap stack root s = some last) :
    ¬ heap < pageSize := by
  intro fault
  simp only [rounds, if_pos fault, Option.bind_eq_some_iff] at ran
  obtain ⟨s1, -, s2, -, none⟩ := ran
  contradiction

/-! ## Rounds that keep the tables -/

/-- The tree is well formed, and its tables were free before. -/
structure Settled (m : Pmm) (root : Word) (s : Machine) : Prop where
  /-- The tree is well formed. -/
  tree : s.Tree root
  /-- The bitmap can mark what it hands out. -/
  marks : s.pmm.Marks
  /-- Frames were only marked. -/
  marked : m.Marked s.pmm
  /-- Tables were free. -/
  tables_fresh : ∀ table, s.IsTable root table → m.Fresh table

/-- A round maps one page, and makes tables from free frames. -/
theorem mapFrame_grown
    (tree : s.Tree root)
    (marks : s.pmm.Marks)
    (mapped : mapFrame virtual root s = some next)
    (enough : next.nulls = s.nulls) :
    ∃ taken tables, Grown root taken tables {pageOf virtual} s next := by
  obtain ⟨-, frame, grown⟩ | ⟨-, frame, tables, one⟩ :=
    mapFrame_cases tree marks mapped enough
  · exact ⟨_, _, grown⟩
  · exact ⟨_, _, one.grown⟩

variable {m : Pmm}

theorem Settled.mapFrame
    (settled : Settled m root s)
    (mapped : mapFrame virtual root s = some next)
    (enough : next.nulls = s.nulls) :
    Settled m root next := by
  obtain ⟨taken, tables, grown⟩ := mapFrame_grown settled.tree settled.marks
    mapped enough
  refine ⟨grown.tree, grown.marks settled.marks,
    settled.marked.trans grown.marked, ?_⟩
  intro table isTable
  rcases (grown.isTable_iff table).mp isTable with old | new
  · exact settled.tables_fresh table old
  · exact (grown.fresh table (grown.tables_taken table new)).of_marked
      settled.marked

/-- A table is in the way of no page that was not free. -/
theorem Settled.pageOf_ne
    (settled : Settled m root s)
    (spared : pageOf virtual = 0 ∨ ¬ m.Free (pageOf virtual))
    {table : Word}
    (isTable : s.IsTable root table) :
    pageOf table ≠ pageOf virtual := by
  have fresh := settled.tables_fresh table isTable
  intro same
  rw [← same, fresh.pageOf_eq] at spared
  rcases spared with null | used
  · exact fresh.frameOf_ne_zero null
  · exact used fresh.free

/-- A round that maps no free frame's page keeps the tables mapped. -/
theorem Settled.selfMapped
    (settled : Settled m root s)
    (selfMapped : SelfMapped PointsTo root s)
    (spared : pageOf virtual = 0 ∨ ¬ m.Free (pageOf virtual))
    (mapped : Machine.mapFrame virtual root s = some next)
    (enough : next.nulls = s.nulls) :
    SelfMapped PointsTo root next := by
  obtain ⟨taken, tables, grown⟩ := mapFrame_grown settled.tree settled.marks
    mapped enough
  apply selfMapped.grown (goodFlags_pointsTo (Or.inl rfl)) grown
  intro table isTable inside
  exact (settled.mapFrame mapped enough).pageOf_ne spared isTable inside

/-! ## Rounds that replace the root -/

/-- The root's page is mapped to something else. -/
def Replaced (root : Word) (s : Machine) : Prop :=
  ∃ frame, PointsTo frame (s.leafAt root root) ∧ frame ≠ root

theorem Replaced.translateAddr_ne
    (replaced : Replaced root s)
    (notNull : root ≠ 0#64) :
    s.translateAddr root root ≠ root := by
  obtain ⟨frame, points, different⟩ := replaced
  rw [translateAddr_eq root notNull, next_eq_some points]
  exact different

/-- A round at the root's page replaces it. -/
theorem Settled.replaced
    (settled : Settled m root s)
    (rootPage : pageOf root = pageOf virtual)
    (virtual_ne : virtual ≠ 0#64)
    (mapped : Machine.mapFrame virtual root s = some next)
    (enough : next.nulls = s.nulls) :
    Replaced root next := by
  obtain ⟨null, -⟩ | ⟨-, frame, tables, one⟩ :=
    mapFrame_cases settled.tree settled.marks mapped enough
  · exact absurd null virtual_ne
  · have fresh := one.fresh
    refine ⟨frame, ?_, ?_⟩
    · rw [PointsTo, leafAt_eq_of_pageOf_eq rootPage, one.leaf]
      exact next_or_flags fresh.aligned
        (lt_trans fresh.toNat_lt (by decide)) (by decide) (by decide)
    · rintro rfl
      exact fresh.free.2 (settled.tree.used frame (isTable_root _ _))

/-- A round at another page leaves it replaced. -/
theorem Settled.still_replaced
    (settled : Settled m root s)
    (replaced : Replaced root s)
    (otherPage : pageOf root ≠ pageOf virtual)
    (mapped : Machine.mapFrame virtual root s = some next)
    (enough : next.nulls = s.nulls) :
    Replaced root next := by
  obtain ⟨frame, points, different⟩ := replaced
  obtain ⟨taken, tables, grown⟩ := mapFrame_grown settled.tree settled.marks
    mapped enough
  have rootTable := s.isTable_root root
  have small := (settled.tables_fresh root rootTable).small
  refine ⟨frame, ?_, different⟩
  rw [grown.leaf_other root otherPage fun table new =>
    (grown.fresh table (grown.tables_taken table new)).pageOf_ne
      (lt_trans small (by decide)) (settled.tree.used root rootTable)]
  exact points

/-! ## Rounds in which the tables are there -/

/-- The tables of the window are there. -/
def Open (root : Word) (s : Machine) : Prop :=
  (s.nodeAt root [0, 0, 0]).isSome

/-- In an open window a round takes one frame and writes one entry, through
tables of the tree. -/
theorem Open.mapFrame
    {frame : Word} {allocated : Machine}
    (opened : Open root s)
    (low : pageOf virtual < 512)
    (virtual_ne : virtual ≠ 0#64)
    (answered : s.allocFrame = some (frame, allocated))
    (frame_ne : frame ≠ 0#64) :
    ∃ visited table, Machine.mapFrame virtual root s =
        some (allocated.rewritten visited table (p1Entry virtual)
          (alignAddr frame ||| userPtEntry)) ∧
      root ∈ visited ∧ ∀ other ∈ visited, s.IsTable root other := by
  obtain ⟨table, found⟩ := Option.isSome_iff_exists.mp opened
  have tables_eq : allocated.tables = s.tables := by
    rcases allocFrame_cases answered with ⟨-, -, same⟩ | ⟨-, -, same⟩ <;>
      rw [same]
  have there : allocated.nodeAt root (tablePath virtual) = some table := by
    rw [tablePath_eq_low_iff.mpr low, nodeAt, tables_eq]
    exact found
  obtain ⟨visited, mapped, rootVisited, isTable⟩ :=
    mapAddr_present userPtEntry there frame_ne virtual_ne
  refine ⟨visited, table, ?_, rootVisited, ?_⟩
  · rw [Machine.mapFrame, answered, Option.bind_some, mapped]
  · intro other member
    have inTree := isTable other member
    rwa [IsTable, tables_eq] at inTree

theorem Open.grown
    {taken tables : List Word} {touched : Set Nat}
    (opened : Open root s)
    (grown : Grown root taken tables touched s next) :
    Open root next := by
  obtain ⟨table, found⟩ := Option.isSome_iff_exists.mp opened
  rw [Open, grown.keeps _ table (by simp) found]
  rfl

/-- The first round opens the window. -/
theorem Settled.opens
    (settled : Settled m root s)
    (low : pageOf virtual < 512)
    (virtual_ne : virtual ≠ 0#64)
    (mapped : Machine.mapFrame virtual root s = some next)
    (enough : next.nulls = s.nulls) :
    Open root next := by
  obtain ⟨null, -⟩ | ⟨-, frame, tables, one⟩ :=
    mapFrame_cases settled.tree settled.marks mapped enough
  · exact absurd null virtual_ne
  · have present := one.present
    rwa [tablePath_eq_low_iff.mpr low] at present

theorem mapFrame_taken
    (mapped : mapFrame virtual root s = some next)
    (enough : next.nulls = s.nulls) :
    ∃ frame allocated, s.allocFrame = some (frame, allocated) ∧
      s.pmm.Taken frame allocated.pmm ∧ allocated.nulls = s.nulls := by
  obtain ⟨⟨frame, allocated⟩, answered, rest⟩ :=
    Option.bind_eq_some_iff.mp mapped
  obtain ⟨taken, counted, -⟩ := allocFrame_taken answered
    (mapAddr_advances rest).nulls_le enough
  exact ⟨frame, allocated, answered, taken, counted⟩

/-- In an open window a round takes one frame, whatever it maps. -/
theorem Open.takes_one
    {frame : Word} {allocated : Machine}
    (opened : Open root s)
    (low : pageOf virtual < 512)
    (answered : s.allocFrame = some (frame, allocated))
    (frame_ne : frame ≠ 0#64) :
    ∃ next, Machine.mapFrame virtual root s = some next ∧
      next.pmm = allocated.pmm ∧ next.nulls = allocated.nulls := by
  by_cases null : virtual = 0#64
  · refine ⟨allocated, ?_, rfl, rfl⟩
    rw [Machine.mapFrame, answered, Option.bind_some,
      mapAddr_null _ _ _ (Or.inr null)]
  · obtain ⟨visited, table, mapped, -⟩ :=
      opened.mapFrame low null answered frame_ne
    exact ⟨_, mapped, rfl, rfl⟩

/-- In open windows, rounds from the same frames take the same frames. -/
theorem Open.transfer
    {t : Machine} {address : Word}
    (opened : Open root s)
    (low : pageOf virtual < 512)
    (mapped : Machine.mapFrame virtual root s = some next)
    (enough : next.nulls = s.nulls)
    (otherOpened : Open root t)
    (otherLow : pageOf address < 512)
    (samePmm : t.pmm = s.pmm) :
    ∃ other, Machine.mapFrame address root t = some other ∧
      other.pmm = next.pmm ∧ other.nulls = t.nulls := by
  obtain ⟨frame, allocated, answered, taken, -⟩ := mapFrame_taken mapped enough
  have otherAnswered : t.allocFrame = some (frame,
      { t with pmm := allocated.pmm, allocs := frame :: t.allocs }) := by
    rw [allocFrame] at answered ⊢
    obtain ⟨result, found, same⟩ := Option.map_eq_some_iff.mp answered
    obtain ⟨rfl, rfl⟩ := Prod.mk.inj same
    rw [samePmm, found]
    rfl
  obtain ⟨first, firstMapped, firstPmm, -⟩ :=
    opened.takes_one low answered taken.ne_zero
  obtain ⟨second, secondMapped, secondPmm, secondNulls⟩ :=
    otherOpened.takes_one otherLow otherAnswered taken.ne_zero
  obtain rfl := Option.some.inj (firstMapped.symm.trans mapped)
  refine ⟨second, secondMapped, secondPmm.trans firstPmm.symm,
    secondNulls.trans ?_⟩
  simp [nulls, taken.ne_zero]

/-- When the rounds return without a failure, so do the rounds that map other
pages of the window. -/
theorem Settled.rounds_transfer
    {heap stack otherHeap otherStack : Nat}
    (settled : Settled m root s)
    (heap_pos : 1 ≤ heap)
    (heap_le : heap ≤ 32)
    (stack_le : stack ≤ 32)
    (otherHeap_pos : 1 ≤ otherHeap)
    (otherHeap_le : otherHeap ≤ 32)
    (otherStack_le : otherStack ≤ 32)
    (ran : rounds (heap * pageSize) (stack * pageSize) root s = some last)
    (enough : last.nulls = s.nulls) :
    ∃ other, rounds (otherHeap * pageSize) (otherStack * pageSize) root s =
        some other ∧ other.nulls = s.nulls := by
  have low : ∀ {page}, page ≤ 32 → pageOf (windowPage page) < 512 := by
    intro page le
    rw [pageOf_windowPage le]
    omega
  obtain ⟨s1, s2, first, second, third⟩ := (rounds_eq_some_iff heap_pos).mp ran
  have nulls1 := (mapFrame_advances first).nulls_le
  have nulls2 := (mapFrame_advances second).nulls_le
  have nulls3 := (mapFrame_advances third).nulls_le
  have settled1 := settled.mapFrame first (by omega)
  have open1 := settled.opens (low (by decide))
    (windowPage_ne_zero (by decide) (by decide)) first (by omega)
  obtain ⟨_, _, grown2⟩ := mapFrame_grown settled1.tree settled1.marks second
    (by omega)
  obtain ⟨t2, otherSecond, pmm2, otherNulls2⟩ := open1.transfer (low heap_le)
    second (by omega) open1 (low otherHeap_le) rfl
  obtain ⟨_, _, otherGrown2⟩ := mapFrame_grown settled1.tree settled1.marks
    otherSecond otherNulls2
  obtain ⟨t3, otherThird, -, otherNulls3⟩ := (open1.grown grown2).transfer
    (low stack_le) third (by omega) (open1.grown otherGrown2)
    (low otherStack_le) pmm2
  exact ⟨t3, (rounds_eq_some_iff otherHeap_pos).mpr
    ⟨s1, t2, first, otherSecond, otherThird⟩, by omega⟩

/-! ## Runs of `init_thread_vmm` -/

/-- A run that got all the frames it asked for: the tree at `load_cr3`, and
the rounds after it. -/
structure Ran (info : KernelInfo) (s : Machine) (mem : Memory) (root : Word)
    (prepared : Machine) (heap stack : Nat) (final : Machine) : Prop where
  /-- The pages that the window hands out. -/
  pages : Window.Pages mem heap stack
  /-- What comes before `load_cr3`. -/
  prepared_eq : s.prepare info = some (root, prepared)
  /-- What comes after it. -/
  rounds_eq : rounds (heap * pageSize) (stack * pageSize) root
    (prepared.loadCr3 root) = some final
  /-- No `alloc_frame` failed. -/
  enough : final.nulls = s.nulls

theorem Ready.settled
    {info : KernelInfo} {prepared : Machine}
    (ready : Ready info s root prepared) :
    Settled s.pmm root (prepared.loadCr3 root) where
  tree := { ready.selfMapped.tree with }
  marks := ready.selfMapped.marks
  marked := ready.marked
  tables_fresh := ready.tables_fresh

theorem Ready.selfMapped_loadCr3
    {info : KernelInfo} {prepared : Machine}
    (ready : Ready info s root prepared) :
    SelfMapped PointsTo root (prepared.loadCr3 root) :=
  { ready.selfMapped with tree := { ready.selfMapped.tree with } }

/-- The states between the rounds of a run; no frame was missing in any of
them. -/
structure Stages (info : KernelInfo) (s : Machine) (root : Word)
    (prepared : Machine) (heap stack : Nat) (final s1 s2 : Machine) :
    Prop where
  ready : Ready info s root prepared
  enough : prepared.nulls = s.nulls
  first : mapFrame (windowPage 1) root (prepared.loadCr3 root) = some s1
  enough1 : s1.nulls = (prepared.loadCr3 root).nulls
  second : mapFrame (windowPage heap) root s1 = some s2
  enough2 : s2.nulls = s1.nulls
  third : mapFrame (windowPage stack) root s2 = some final
  enough3 : final.nulls = s2.nulls

namespace Stages

variable {info : KernelInfo} {prepared final s1 s2 : Machine}
variable {heap stack : Nat}
variable (stages : Stages info s root prepared heap stack final s1 s2)

include stages

theorem settled1 : Settled s.pmm root s1 :=
  stages.ready.settled.mapFrame stages.first stages.enough1

theorem settled2 : Settled s.pmm root s2 :=
  stages.settled1.mapFrame stages.second stages.enough2

/-- The window stays open. -/
theorem opened (open0 : Open root prepared) : Open root s1 ∧ Open root s2 := by
  have settled0 := stages.ready.settled
  have settled1 := stages.settled1
  obtain ⟨_, _, grown1⟩ := mapFrame_grown settled0.tree settled0.marks
    stages.first stages.enough1
  obtain ⟨_, _, grown2⟩ := mapFrame_grown settled1.tree settled1.marks
    stages.second stages.enough2
  have open1 : Open root s1 :=
    Open.grown (show Open root (prepared.loadCr3 root) from open0) grown1
  exact ⟨open1, open1.grown grown2⟩

end Stages

namespace Ran

variable {info : KernelInfo} {mem : Memory} {prepared final : Machine}
variable {heap stack : Nat}

theorem stages
    (ran : Ran info s mem root prepared heap stack final)
    (layout : info.Layout)
    (marks : s.pmm.Marks) :
    ∃ s1 s2, Stages info s root prepared heap stack final s1 s2 := by
  obtain ⟨_, _, _, made⟩ := prepare_cases ran.prepared_eq
  obtain ⟨s1, s2, first, second, third⟩ := (rounds_eq_some_iff
    (le_trans (by decide) ran.pages.two_le_heap)).mp ran.rounds_eq
  have nulls0 := made.advances.nulls_le
  have nulls1 : prepared.nulls ≤ s1.nulls := (mapFrame_advances first).nulls_le
  have nulls2 := (mapFrame_advances second).nulls_le
  have nulls3 := (mapFrame_advances third).nulls_le
  have enough := ran.enough
  have enough0 : prepared.nulls = s.nulls := by omega
  have loaded : (prepared.loadCr3 root).nulls = prepared.nulls := rfl
  exact ⟨s1, s2, made.ready layout marks enough0, enough0, first, by omega,
    second, by omega, third, by omega⟩

/-- There are bytes with which the heap gets a given page, and the stack the
next one. -/
theorem crowded
    {page : Nat}
    (ran : Ran info s mem root prepared heap stack final)
    (layout : info.Layout)
    (marks : s.pmm.Marks)
    (two_le : 2 ≤ page)
    (le : page ≤ 32) :
    ∃ stack final,
      Ran info s (Window.crowded page) root prepared page stack final ∧
        (page < 32 → stack ≠ 0) := by
  have address := Window.heapAddress_crowded page (by omega) two_le
  have notNull : ¬ Window.heapAddress (Window.crowded page) < pageSize := by
    rw [address]
    unfold pageSize
    omega
  obtain ⟨other, last, pages⟩ := Window.pages notNull
  have same := pages.heap_eq
  rw [address] at same
  obtain rfl : page = other := by
    unfold pageSize at same
    omega
  obtain ⟨s1, s2, stages⟩ := ran.stages layout marks
  obtain ⟨otherFinal, otherRan, otherEnough⟩ :=
    stages.ready.settled.rounds_transfer
      (le_trans (by decide) ran.pages.two_le_heap) ran.pages.heap_le
      ran.pages.stack_le (by omega) pages.heap_le pages.stack_le ran.rounds_eq
      (ran.enough.trans stages.enough.symm)
  refine ⟨last, otherFinal, ⟨pages, ran.prepared_eq, otherRan,
    otherEnough.trans stages.enough⟩, ?_⟩
  intro below none
  have stackAddress := Window.stackAddress_crowded below two_le
  rw [pages.stack_eq, none] at stackAddress
  unfold pageSize at stackAddress
  omega

/-- When one of the frames 1 to 32 was free, there are bytes with which the
bitmap or the heap gets the page of the root. -/
theorem meets
    {k : Nat}
    (ran : Ran info s mem root prepared heap stack final)
    (layout : info.Layout)
    (marks : s.pmm.Marks)
    (le : k ≤ 32)
    (free : s.pmm.Free k) :
    frameOf root ≤ k ∧
      ∃ mem heap stack final, Ran info s mem root prepared heap stack final ∧
        (frameOf root = 1 ∨
          frameOf root = heap ∧ (heap < 32 → stack ≠ 0)) := by
  obtain ⟨s1, s2, stages⟩ := ran.stages layout marks
  have rootLe : frameOf root ≤ k := by
    by_contra above
    exact free.2 (stages.ready.lowest k (by omega))
  have rootPos : frameOf root ≠ 0 := stages.ready.fresh.frameOf_ne_zero
  refine ⟨rootLe, ?_⟩
  by_cases first : frameOf root = 1
  · exact ⟨mem, heap, stack, final, ran, Or.inl first⟩
  · obtain ⟨otherStack, otherFinal, otherRan, next⟩ :=
      ran.crowded layout marks (show 2 ≤ frameOf root by omega) (by omega)
    exact ⟨_, _, otherStack, otherFinal, otherRan, Or.inr ⟨rfl, next⟩⟩

end Ran

end Machine

section Runs

variable {info : KernelInfo} {mem : Memory} {s : Machine}

theorem initThreadVmm_cases
    {vmm : Vmm} {thread : Thread} {last : Space}
    (ran : initThreadVmm info mem vmm s = some (thread, last))
    (enough : last.machine.nulls = s.nulls) :
    ∃ prepared heap stack final,
      Machine.Ran info s mem last.vi.p4Tbl prepared heap stack final ∧
      last.machine = final.loadCr3 (paddr final.pml4) := by
  have eq := initThreadVmm_rounds info mem vmm s
  rw [ran, Option.map_some] at eq
  obtain ⟨⟨root, prepared⟩, prepared_eq, eq⟩ :=
    Option.bind_eq_some_iff.mp eq.symm
  obtain ⟨final, rounds_eq, same⟩ := Option.map_eq_some_iff.mp eq
  obtain ⟨machine_eq, rfl⟩ := Prod.mk.inj same
  obtain ⟨heap, stack, pages⟩ :=
    Window.pages (Machine.not_lt_of_rounds rounds_eq)
  rw [pages.heap_eq, pages.stack_eq] at rounds_eq
  rw [← machine_eq] at enough
  exact ⟨prepared, heap, stack, final, ⟨pages, prepared_eq, rounds_eq, enough⟩,
    machine_eq.symm⟩

theorem Machine.Ran.initThreadVmm
    {root : Word} {prepared final : Machine} {heap stack : Nat}
    (ran : Machine.Ran info s mem root prepared heap stack final)
    (vmm : Vmm) :
    ∃ thread last, PivotOs.initThreadVmm info mem vmm s = some (thread, last) ∧
      last.machine = final.loadCr3 (paddr final.pml4) ∧
      last.vi.p4Tbl = root := by
  have eq := initThreadVmm_rounds info mem vmm s
  rw [ran.prepared_eq, Option.bind_some, ran.pages.heap_eq,
    ran.pages.stack_eq, ran.rounds_eq, Option.map_some] at eq
  obtain ⟨⟨thread, last⟩, result, same⟩ := Option.map_eq_some_iff.mp eq
  obtain ⟨machine_eq, root_eq⟩ := Prod.mk.inj same
  exact ⟨thread, last, result, machine_eq, root_eq⟩

end Runs

/-- `init_thread_vmm` can return without a failure of `alloc_frame`. -/
def Completes (info : KernelInfo) (s : Machine) : Prop :=
  ∃ mem vmm thread last, initThreadVmm info mem vmm s = some (thread, last) ∧
    last.machine.nulls = s.nulls

end PivotOs
