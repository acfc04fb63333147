import PivotOs.Thread.SelfMap

/-!
# Accesses from inside the thread's tree

After `load_cr3` the thread's own tree decides where the kernel finds a table.
Two things can go wrong.  When the tables of the window are missing, `init_vmm`
makes one, and cleans it before mapping it.  When the bitmap or the heap is
mapped over the root, the next round does not find the root.
-/

namespace PivotOs

open Paging Bitmap

namespace KernelInfo

/-- The local APIC and the frame bitmap are not in free frames: `init_lapic`
marks the one, and the loader took the other from memory that `init_pmm` does
not free. -/
structure Reserved (info : KernelInfo) (m : Pmm) : Prop where
  lapic : info.x2mode = false → ¬ m.Free (frameOf info.lapic)
  bitmap : ∀ i, i < info.pmmPages →
    ¬ m.Free (frameOf (Pmm.pageAddress info.bitmap i))

/-- Something of the first 512 pages is mapped before the switch: a free frame
that becomes the root, or a device. -/
def MapsLow (info : KernelInfo) (m : Pmm) : Prop :=
  (∃ k, 1 ≤ k ∧ k < 512 ∧ m.Free k) ∨
    ∃ address, info.IdentityAddress address ∧ address ≠ 0#64 ∧
      pageOf address < 512

end KernelInfo

/-- When `init_thread_vmm` returns without a failure of `alloc_frame`, every
table that it touched after `load_cr3` was mapped at its own address then. -/
def FindsTables (info : KernelInfo) (s : Machine) : Prop :=
  ∀ mem vmm thread last root prepared,
    s.prepare info = some (root, prepared) →
    initThreadVmm info mem vmm s = some (thread, last) →
    last.machine.nulls = s.nulls →
      prepared.Found last.machine

namespace Machine

variable {s next prepared final : Machine} {root virtual : Word}
variable {info : KernelInfo} {m : Pmm}

/-! ## The tables of the window -/

theorem Ready.open_iff (ready : Ready info s root prepared) :
    Open root prepared ↔ info.MapsLow s.pmm := by
  constructor
  · intro opened
    obtain ⟨table, found⟩ := Option.isSome_iff_exists.mp opened
    obtain ⟨address, suffix, cause⟩ :=
      ready.path_cause [0, 0, 0] table (by simp) (by simp) found
    have low : pageOf address < 512 :=
      tablePath_eq_low_iff.mp (suffix.eq_of_length rfl).symm
    rcases cause with high | fresh | ⟨device, notNull⟩
    · omega
    · rw [fresh.pageOf_eq] at low
      exact Or.inl ⟨frameOf address,
        Nat.one_le_iff_ne_zero.mpr fresh.frameOf_ne_zero, low, fresh.free⟩
    · exact Or.inr ⟨address, device, notNull, low⟩
  · rintro (⟨k, -, low, free⟩ | ⟨address, device, notNull, low⟩)
    · have rootLow : pageOf root < 512 := by
        rw [ready.fresh.pageOf_eq]
        by_contra above
        exact free.2 (ready.lowest k (by omega))
      have path := ready.root_path
      rwa [tablePath_eq_low_iff.mpr rootLow] at path
    · have path := ready.device_path address device notNull
      rwa [tablePath_eq_low_iff.mpr low] at path

/-- A free frame is not mapped at the switch. -/
theorem Ready.leaf_of_fresh
    {frame : Word}
    (ready : Ready info s root prepared)
    (layout : info.Layout)
    (reserved : info.Reserved s.pmm)
    (fresh : prepared.pmm.Fresh frame) :
    prepared.leafAt root frame = 0#64 := by
  apply ready.leaf_free frame fresh
  intro address device notNull samePage
  have small := fresh.small
  have sameFrame : frameOf address = frameOf frame := by
    rw [fresh.pageOf_eq] at samePage
    rcases layout.devices address device with low | high
    · rwa [pageOf_eq_frameOf (by unfold frameOf pageSize; omega)] at samePage
    · have above := le_pageOf_of_bit high
      omega
  have free := fresh.free
  rw [← sameFrame] at free
  rcases device with ⟨i, below, rfl⟩ | ⟨xApic, rfl⟩ | ⟨i, below, rfl⟩
  · exact ready.buffer_used i below notNull free
  · exact reserved.lapic xApic (ready.marked.free free)
  · exact reserved.bitmap i below (ready.marked.free free)

/-- A free frame lies above the root, so it shares no missing table with the
window. -/
theorem Ready.shared
    {frame : Word} {path : List (Fin 512)}
    (ready : Ready info s root prepared)
    (fresh : s.pmm.Fresh frame)
    (low : path <:+ [0, 0, 0])
    (suffix : path <:+ tablePath frame) :
    (prepared.nodeAt root path).isSome := by
  have above : pageOf root ≤ pageOf frame := by
    rw [ready.fresh.pageOf_eq, fresh.pageOf_eq]
    by_contra below
    exact fresh.free.2 (ready.lowest _ (by omega))
  exact RadixTree.nodeAt_isSome_of_suffix (low_suffix_of_le above low suffix)
    ready.root_path

/-! ## What a round touches -/

/-- A round that maps nothing touches nothing. -/
theorem mapFrame_null_found
    (mapped : mapFrame 0#64 root s = some next) :
    Found s next := by
  obtain ⟨⟨frame, allocated⟩, answered, rest⟩ :=
    Option.bind_eq_some_iff.mp mapped
  rw [mapAddr_null _ _ _ (Or.inr rfl)] at rest
  obtain rfl := Option.some.inj rest
  have logged : allocated.accesses = [] ++ s.accesses := by
    rcases allocFrame_cases answered with ⟨-, -, same⟩ | ⟨-, -, same⟩ <;>
      rw [same] <;> rfl
  exact Found.of_accesses logged (by simp)

/-- In an open window, a round logs the state of the tables before it. -/
theorem Open.accesses
    (opened : Open root s)
    (low : pageOf virtual < 512)
    (virtual_ne : virtual ≠ 0#64)
    (mapped : Machine.mapFrame virtual root s = some next)
    (enough : next.nulls = s.nulls) :
    ∃ visited : List Word, next.accesses = visited.map (fun other =>
        (other, reaches s.tables s.cr3 other)) ++ s.accesses ∧
      root ∈ visited ∧ ∀ other ∈ visited, s.IsTable root other := by
  obtain ⟨frame, allocated, answered, taken, -⟩ := mapFrame_taken mapped enough
  obtain ⟨visited, table, written, rootVisited, isTable⟩ :=
    opened.mapFrame low virtual_ne answered taken.ne_zero
  obtain rfl := Option.some.inj (written.symm.trans mapped)
  refine ⟨visited, ?_, rootVisited, isTable⟩
  rcases allocFrame_cases answered with ⟨-, -, same⟩ | ⟨-, -, same⟩ <;>
    rw [same] <;> rfl

/-- When every table is mapped, a round in an open window finds them. -/
theorem SelfMapped.found
    (selfMapped : SelfMapped PointsTo root s)
    (active : s.cr3 = root)
    (opened : Open root s)
    (low : pageOf virtual < 512)
    (mapped : mapFrame virtual root s = some next)
    (enough : next.nulls = s.nulls) :
    Found s next := by
  by_cases null : virtual = 0#64
  · rw [null] at mapped
    exact mapFrame_null_found mapped
  · obtain ⟨visited, logged, -, isTable⟩ :=
      opened.accesses low null mapped enough
    apply Found.of_accesses logged
    intro access member
    obtain ⟨other, inVisited, rfl⟩ := List.mem_map.mp member
    have rootLow := selfMapped.low root (Machine.isTable_root _ _)
    rw [active]
    exact (reaches_iff selfMapped.tree.root_aligned
      (lt_trans rootLow (by decide)) other).mpr
        (selfMapped.self other (isTable other inVisited))

/-- When the root is replaced, a round in an open window does not find it. -/
theorem Settled.not_found_of_replaced
    (settled : Settled m root s)
    (replaced : Replaced root s)
    (active : s.cr3 = root)
    (opened : Open root s)
    (low : pageOf virtual < 512)
    (virtual_ne : virtual ≠ 0#64)
    (mapped : Machine.mapFrame virtual root s = some next)
    (enough : next.nulls = s.nulls) :
    ¬ Found s next := by
  intro found
  obtain ⟨visited, logged, rootVisited, -⟩ :=
    opened.accesses low virtual_ne mapped enough
  have seen := found _ logged _ (List.mem_map_of_mem rootVisited)
  obtain ⟨frame, points, different⟩ := replaced
  have fresh := settled.tables_fresh root (Machine.isTable_root _ _)
  rw [active, reaches_iff fresh.aligned
    (lt_trans fresh.toNat_lt (by decide)), points] at seen
  exact different (Option.some.inj seen)

/-- When the tables of the window are missing at the switch, the first round
touches a table that is not mapped. -/
theorem Ready.not_found_of_missing
    (ready : Ready info s root prepared)
    (layout : info.Layout)
    (reserved : info.Reserved s.pmm)
    (missing : ¬ Open root prepared)
    (mapped : mapFrame (windowPage 1) root (prepared.loadCr3 root) = some next)
    (enough : next.nulls = (prepared.loadCr3 root).nulls) :
    ¬ Found (prepared.loadCr3 root) next := by
  obtain ⟨⟨frame, allocated⟩, answered, rest⟩ :=
    Option.bind_eq_some_iff.mp mapped
  have settled := ready.settled
  obtain ⟨taken, counted, same⟩ := allocFrame_taken answered
    (mapAddr_advances rest).nulls_le enough
  have grown : Grown root [frame] [] ∅ (prepared.loadCr3 root) allocated :=
    Grown.of_taken settled.tree settled.marks answered taken same
  have tables_eq : allocated.tables = prepared.tables := by
    rw [same]
    rfl
  have page1 := pageOf_windowPage (show 1 ≤ 32 by decide)
  have path : tablePath (windowPage 1) = [0, 0, 0] :=
    tablePath_eq_low_iff.mpr (by omega)
  have older : ∀ {other}, allocated.pmm.Fresh other → prepared.pmm.Fresh other :=
    Pmm.Fresh.of_marked grown.marked
  intro found
  refine mapAddr_misses grown.tree (lt_trans ready.fresh.toNat_lt (by decide))
    grown.cr3_eq ?_ ?_ taken.ne_zero
    (windowPage_ne_zero (by decide) (by decide)) ?_ rest
    (enough.trans counted.symm) (found.within grown.toAdvances
      (Advances.refl next))
  · intro other fresh
    rw [leafAt, tables_eq]
    exact ready.leaf_of_fresh layout reserved (older fresh)
  · intro other way fresh towards suffix
    rw [path] at towards
    rw [nodeAt, tables_eq]
    exact ready.shared ((older fresh).of_marked ready.marked) towards suffix
  · rw [path, nodeAt, tables_eq]
    exact Option.not_isSome_iff_eq_none.mp missing

/-! ## The whole of the three rounds -/

section Rounds

variable {mem : Memory} {heap stack : Nat}

theorem pageOf_windowPage_lt {page : Nat} (le : page ≤ 32) :
    pageOf (windowPage page) < 512 := by
  rw [pageOf_windowPage le]
  omega

/-- With the tables of the window there and none of the frames 1 to 31 free,
every round finds its tables.  A heap in page 32 is the last round that touches
any. -/
theorem Ran.found
    (ran : Ran info s mem root prepared heap stack final)
    (layout : info.Layout)
    (marks : s.pmm.Marks)
    (none : ∀ k, 1 ≤ k → k ≤ 31 → ¬ s.pmm.Free k)
    (low : info.MapsLow s.pmm) :
    Found (prepared.loadCr3 root) final := by
  have two_le := ran.pages.two_le_heap
  have heap_lt := ran.pages.heap_lt_stack
  have stack_le := ran.pages.stack_le
  have spared : ∀ {page}, 1 ≤ page → page ≤ 31 →
      ¬ s.pmm.Free (pageOf (windowPage page)) := by
    intro page positive le
    rw [pageOf_windowPage (by omega)]
    exact none page positive le
  obtain ⟨s1, s2, stages⟩ := ran.stages layout marks
  have open0 := stages.ready.open_iff.mpr low
  obtain ⟨open1, open2⟩ := stages.opened open0
  have step1 := mapFrame_advances stages.first
  have step2 := mapFrame_advances stages.second
  have step3 := mapFrame_advances stages.third
  have mapped0 := stages.ready.selfMapped_loadCr3
  have mapped1 := stages.ready.settled.selfMapped mapped0
    (Or.inr (spared (by decide) (by decide))) stages.first stages.enough1
  have found1 := mapped0.found rfl open0 (pageOf_windowPage_lt (by decide))
    stages.first stages.enough1
  have found2 := mapped1.found step1.cr3_eq open1
    (pageOf_windowPage_lt ran.pages.heap_le) stages.second stages.enough2
  refine (found1.trans found2 step1 step2).trans ?_ (step1.trans step2) step3
  by_cases last : heap ≤ 31
  · have mapped2 := stages.settled1.selfMapped mapped1
      (Or.inr (spared (by omega) last)) stages.second stages.enough2
    exact mapped2.found (step2.cr3_eq.trans step1.cr3_eq) open2
      (pageOf_windowPage_lt stack_le) stages.third stages.enough3
  · obtain rfl : stack = 0 := by omega
    exact mapFrame_null_found stages.third

/-- When the page of the root is that of the bitmap, or that of a heap with a
stack behind it, the next round does not find the root. -/
theorem Ran.not_found
    (ran : Ran info s mem root prepared heap stack final)
    (layout : info.Layout)
    (marks : s.pmm.Marks)
    (low : info.MapsLow s.pmm)
    (meets : frameOf root = 1 ∨ frameOf root = heap ∧ stack ≠ 0) :
    ¬ Found (prepared.loadCr3 root) final := by
  have two_le := ran.pages.two_le_heap
  have heap_le := ran.pages.heap_le
  have stack_le := ran.pages.stack_le
  have page1 := pageOf_windowPage (show 1 ≤ 32 by decide)
  have heapPage := pageOf_windowPage ran.pages.heap_le
  obtain ⟨s1, s2, stages⟩ := ran.stages layout marks
  obtain ⟨open1, open2⟩ := stages.opened (stages.ready.open_iff.mpr low)
  have rootPage := stages.ready.fresh.pageOf_eq
  have step1 := mapFrame_advances stages.first
  have step2 := mapFrame_advances stages.second
  have step3 := mapFrame_advances stages.third
  intro found
  rcases meets with bitmap | ⟨heapFrame, stack_ne⟩
  · have replaced := stages.ready.settled.replaced (by omega)
      (windowPage_ne_zero (by decide) (by decide)) stages.first stages.enough1
    exact stages.settled1.not_found_of_replaced replaced step1.cr3_eq open1
      (pageOf_windowPage_lt heap_le) (windowPage_ne_zero (by omega) heap_le)
      stages.second stages.enough2 (found.within step1 step3)
  · have replaced := stages.settled1.replaced (by omega)
      (windowPage_ne_zero (by omega) heap_le) stages.second stages.enough2
    exact stages.settled2.not_found_of_replaced replaced
      (step2.cr3_eq.trans step1.cr3_eq) open2 (pageOf_windowPage_lt stack_le)
      (windowPage_ne_zero (Nat.pos_of_ne_zero stack_ne) stack_le)
      stages.third stages.enough3
      (found.within (step1.trans step2) (Advances.refl final))

/-- When the first 512 pages have no tables, the first round makes one. -/
theorem Ran.not_found_of_missing
    (ran : Ran info s mem root prepared heap stack final)
    (layout : info.Layout)
    (marks : s.pmm.Marks)
    (reserved : info.Reserved s.pmm)
    (missing : ¬ info.MapsLow s.pmm) :
    ¬ Found (prepared.loadCr3 root) final := by
  obtain ⟨s1, s2, stages⟩ := ran.stages layout marks
  rw [← stages.ready.open_iff] at missing
  intro found
  exact stages.ready.not_found_of_missing layout reserved missing stages.first
    stages.enough1 (found.within (Advances.refl _)
      ((mapFrame_advances stages.second).trans
        (mapFrame_advances stages.third)))

end Rounds

end Machine

/-- What the accesses of a thread's initialisation say about a run. -/
theorem FindsTables.found
    {info : KernelInfo} {s prepared final : Machine} {mem : Memory}
    {root : Word} {heap stack : Nat}
    (finds : FindsTables info s)
    (ran : Machine.Ran info s mem root prepared heap stack final) :
    Machine.Found (prepared.loadCr3 root) final := by
  obtain ⟨thread, last, result, machine_eq, root_eq⟩ :=
    ran.initThreadVmm blankVmm
  have found := finds mem _ thread last root prepared ran.prepared_eq result
    (by rw [machine_eq]; exact ran.enough)
  rw [machine_eq] at found
  exact found

/-- Every table that `init_thread_vmm` touches after `load_cr3` is mapped at
its own address then, whatever the bytes of the window, exactly when none of
the frames 1 to 31 was free and something of the first 512 pages was mapped
before. -/
theorem findsTables_iff
    (info : KernelInfo) (s : Machine)
    (layout : info.Layout)
    (marks : s.pmm.Marks)
    (reserved : info.Reserved s.pmm)
    (completes : Completes info s) :
    FindsTables info s ↔
      (∀ k, 1 ≤ k → k ≤ 31 → ¬ s.pmm.Free k) ∧ info.MapsLow s.pmm := by
  constructor
  · intro finds
    obtain ⟨mem, vmm, thread, last, result, enough⟩ := completes
    obtain ⟨prepared, heap, stack, final, ran, -⟩ :=
      initThreadVmm_cases result enough
    have low : info.MapsLow s.pmm := by
      by_contra missing
      exact ran.not_found_of_missing layout marks reserved missing
        (finds.found ran)
    refine ⟨?_, low⟩
    intro k positive le free
    obtain ⟨rootLe, mem, heap, stack, final, ran, meets⟩ :=
      ran.meets layout marks (show k ≤ 32 by omega) free
    refine ran.not_found layout marks low ?_ (finds.found ran)
    exact meets.imp_right fun ⟨same, next⟩ => ⟨same, next (by omega)⟩
  · rintro ⟨none, low⟩ mem vmm thread last root prepared prepared_eq result
      enough
    obtain ⟨other, heap, stack, final, ran, machine_eq⟩ :=
      initThreadVmm_cases result enough
    obtain ⟨rfl, rfl⟩ := Prod.mk.inj
      (Option.some.inj (prepared_eq.symm.trans ran.prepared_eq))
    rw [machine_eq]
    exact ran.found layout marks none low

theorem sampleInfo_reserved
    {bitmap : Word} {m : Pmm}
    (lapicUsed : ¬ m.Free (frameOf 0xFEE00000#64))
    (bitmapUsed : ¬ m.Free (frameOf bitmap)) :
    (sampleInfo bitmap).Reserved m where
  lapic := fun _ => lapicUsed
  bitmap := by
    intro i below
    rw [sampleInfo_pmmPages, Nat.lt_one_iff] at below
    rw [below, Pmm.pageAddress, Nat.mul_zero, BitVec.add_zero]
    exact bitmapUsed

theorem findsTables_iff_sample :
    Completes (sampleInfo 0x2000#64) (kernelMachine highRows) ∧
      FindsTables (sampleInfo 0x2000#64) (kernelMachine highRows) := by
  refine ⟨highRows_completes, ?_⟩
  apply (findsTables_iff _ (kernelMachine highRows)
    (sampleInfo_layout (by decide)) (kernelMachine_marks _)
    (sampleInfo_reserved (by decide +kernel) (by decide +kernel))
    highRows_completes).mpr
  have none : ∀ k, k < 32 → ¬ (kernelMachine highRows).pmm.Free k := by
    decide +kernel
  refine ⟨fun k _ le => none k (Nat.lt_succ_of_le le), Or.inl ⟨67, ?_⟩⟩
  decide +kernel

/-- The frames from 512 to 575 are free. -/
def farRows (row : Nat) : Word :=
  if row = 8 then 0#64 else Pmm.bitmapRowFull

theorem farRows_mapsNothing :
    ¬ (sampleInfo 0x300000#64).MapsLow (kernelMachine farRows).pmm := by
  have none : ∀ k, k < 512 → ¬ (kernelMachine farRows).pmm.Free k := by
    decide +kernel
  rintro (⟨k, -, low, free⟩ | ⟨address, device, -, low⟩)
  · exact none k low free
  · have cases := sampleInfo_identity device
    simp only [List.mem_cons, List.not_mem_nil, or_false] at cases
    rcases cases with rfl | rfl | rfl | rfl <;> exact absurd low (by decide)

/-- With the lowest free frame 512 and no device in the first 512 pages,
`init_vmm` makes a table for the window and cleans it before it is mapped. -/
theorem new_table_not_found :
    ¬ ∀ (info : KernelInfo) (s : Machine), info.Layout → s.pmm.Marks →
      info.Reserved s.pmm → Completes info s → FindsTables info s := by
  intro claim
  have ran : (initThreadVmm (sampleInfo 0x300000#64) (fun _ => 0#8) blankVmm
      (kernelMachine farRows)).map (fun result =>
        result.2.machine.nulls) = some (kernelMachine farRows).nulls := by
    decide +kernel
  obtain ⟨⟨thread, last⟩, result, enough⟩ := Option.map_eq_some_iff.mp ran
  have layout : (sampleInfo 0x300000#64).Layout :=
    sampleInfo_layout (by decide)
  have marks := kernelMachine_marks farRows
  have reserved : (sampleInfo 0x300000#64).Reserved
      (kernelMachine farRows).pmm :=
    sampleInfo_reserved (by decide +kernel) (by decide +kernel)
  have finds := claim _ (kernelMachine farRows) layout marks reserved
    ⟨_, _, thread, last, result, enough⟩
  obtain ⟨prepared, heap, stack, final, run, -⟩ :=
    initThreadVmm_cases result enough
  exact run.not_found_of_missing layout marks reserved farRows_mapsNothing
    (finds.found run)

end PivotOs
