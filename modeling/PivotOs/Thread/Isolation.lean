import PivotOs.Thread.Rounds
import PivotOs.Paging.Confined

/-!
# Memory that threads reach

In user mode the processor goes through an entry only when its user bit is set.
`map_addr` sets it in every entry that leads to a table, and in the last entry when
it is told to.  `init_thread_vmm` maps the kernel's image and the framebuffer that
way, and the three frames it takes for the window.  So threads reach the image and
the framebuffer, their own frames, and nothing else: no page table, no frame that
was in use before, and no frame of another thread.
-/

namespace PivotOs

open Paging

namespace Paging

/-- The flags of an entry say whether it is one of user mode. -/
theorem alignAddr_or_and_five (physical flags : Word) :
    (alignAddr physical ||| flags) &&& 5#64 = flags &&& 5#64 := by
  have masked : alignAddr physical &&& 5#64 = 0#64 := by
    rw [alignAddr, BitVec.and_assoc,
      show -(BitVec.ofNat 64 pageSize) &&& 5#64 = 0#64 from by decide,
      BitVec.and_zero]
  rw [BitVec.and_comm, BitVec.and_or_distrib_left, BitVec.and_comm 5#64,
    BitVec.and_comm 5#64, masked, BitVec.zero_or]

end Paging

namespace Machine

variable {s t next : Machine} {root address frame : Word}

/-- The last entry of the address is one of user mode and has the frame. -/
def UserLeaf (t : Machine) (root address frame : Word) : Prop :=
  t.leafAt root address &&& 5#64 = 5#64 ∧
    t.leafAt root address &&& signMask = frame

/-- The frame may be shown to user mode: it is one of those that all threads share,
or it was free, is in use now and is no table. -/
def Given (m : Pmm) (shared : Set Word) (root : Word) (t : Machine)
    (frame : Word) : Prop :=
  frame ∈ shared ∨
    m.Fresh frame ∧ t.pmm.Used (frameOf frame) ∧ ¬ t.IsTable root frame

/-- While an address space is built: its tables were free, what it shows to user
mode may be shown, and other trees stay as they were. -/
structure Guarded (s : Machine) (shared : Set Word) (root : Word)
    (t : Machine) : Prop extends Settled s.pmm root t where
  /-- What is shown may be shown. -/
  shown : ∀ address frame, t.UserLeaf root address frame →
    Given s.pmm shared root t frame
  /-- Other trees are spared. -/
  spares : ∀ src, s.Tree src → Spares src root s t
  /-- The kernel keeps its own root. -/
  pml4_eq : t.pml4 = s.pml4

variable {shared : Set Word} {taken tables : List Word} {touched : Set Nat}

/-- Tables are made from other frames. -/
theorem Given.grown
    {m : Pmm}
    (given : Given m shared root t frame)
    (grown : Grown root taken tables touched t next) :
    Given m shared root next frame := by
  refine given.imp_right fun ⟨fresh, used, notTable⟩ =>
    ⟨fresh, grown.marked.used _ used, fun isTable => ?_⟩
  rcases (grown.isTable_iff frame).mp isTable with old | new
  · exact notTable old
  · exact (grown.fresh frame (grown.tables_taken frame new)).free.2 used

theorem kernel_not_user : kernelPtEntry &&& 5#64 ≠ 5#64 := by decide

/-- Tables are mapped for the kernel only. -/
theorem not_user_table
    {table : Word}
    (aligned : table.toNat % 4096 = 0) :
    (table ||| kernelPtEntry) &&& 5#64 ≠ 5#64 := by
  have flags := alignAddr_or_and_five table kernelPtEntry
  rw [alignAddr_of_aligned aligned] at flags
  rw [flags]
  exact kernel_not_user

namespace Guarded

/-- One mapping.  A frame that is mapped for user mode may be shown. -/
theorem mapAddr
    {physical virtual flags : Word}
    (guarded : Guarded s shared root t)
    (given : flags &&& 5#64 = 5#64 → Given s.pmm shared root t
      ((alignAddr physical ||| flags) &&& signMask))
    (mapped : Machine.mapAddr physical virtual flags root t = some next)
    (enough : next.nulls = t.nulls) :
    Guarded s shared root next := by
  by_cases null : physical = 0#64 ∨ virtual = 0#64
  · rw [mapAddr_null _ _ _ null] at mapped
    obtain rfl := Option.some.inj mapped
    exact guarded
  obtain ⟨physical_ne, virtual_ne⟩ := not_or.mp null
  obtain ⟨tables, grown, leaf, -⟩ := mapAddr_maps guarded.tree guarded.marks
    physical_ne virtual_ne mapped enough
  refine ⟨⟨grown.tree, grown.marks guarded.marks,
    guarded.marked.trans grown.marked, ?_⟩, ?_, ?_,
    grown.pml4_eq.trans guarded.pml4_eq⟩
  · intro table isTable
    rcases (grown.isTable_iff table).mp isTable with old | new
    · exact guarded.tables_fresh table old
    · exact (grown.fresh table new).of_marked guarded.marked
  · rintro address frame ⟨user, rfl⟩
    by_cases here : pageOf address = pageOf virtual
    · rw [leafAt_eq_of_pageOf_eq here, leaf] at user ⊢
      rw [alignAddr_or_and_five] at user
      exact (given user).grown grown
    by_cases isNew : ∃ table ∈ tables, pageOf address = pageOf table
    · obtain ⟨table, member, same⟩ := isNew
      rw [leafAt_eq_of_pageOf_eq same, grown.leaf_table table member
        (by rwa [Set.mem_singleton_iff, ← same])] at user
      exact absurd user (not_user_table (grown.fresh table member).aligned)
    · have kept := grown.leaf_other address (by simpa using here)
        fun table member same => isNew ⟨table, member, same⟩
      rw [kept] at user ⊢
      exact (guarded.shown address _ ⟨user, rfl⟩).grown grown
  · intro src source
    have before := guarded.spares src source
    exact before.trans
      (mapAddr_spares before.apart physical_ne virtual_ne mapped enough)

/-- Marking frames changes no table. -/
theorem mark
    (guarded : Guarded s shared root t)
    (marked : t.pmm.Marked next.pmm)
    (same : next.tables = t.tables)
    (pml4_eq : next.pml4 = t.pml4) :
    Guarded s shared root next := by
  obtain ⟨tables, pmm, pml4, cr3, allocs, accesses⟩ := next
  obtain rfl : tables = t.tables := same
  exact
    { tree :=
        { guarded.tree with
          used := fun table isTable =>
            marked.used _ (guarded.tree.used table isTable) }
      marks := marked.marks guarded.marks
      marked := guarded.marked.trans marked
      tables_fresh := guarded.tables_fresh
      shown := fun address frame shown =>
        (guarded.shown address frame shown).imp_right
          fun ⟨fresh, used, notTable⟩ => ⟨fresh, marked.used _ used, notTable⟩
      spares := fun src source => by
        have before := guarded.spares src source
        exact Spares.of_same source (guarded.marked.trans marked)
          { before.apart.target with
            used := fun table isTable =>
              marked.used _ (before.apart.target.used table isTable) }
          (marked.marks guarded.marks) before.same
          fun table isTable inTarget => before.apart.separate table
            ((before.isTable_iff table).mpr isTable) inTarget
      pml4_eq := pml4_eq.trans guarded.pml4_eq }

/-- One round of the window.  The new frame may be shown. -/
theorem mapFrame
    {virtual : Word}
    (guarded : Guarded s shared root t)
    (mapped : Machine.mapFrame virtual root t = some next)
    (enough : next.nulls = t.nulls) :
    Guarded s shared root next := by
  obtain ⟨⟨new, middle⟩, answered, rest⟩ := Option.bind_eq_some_iff.mp mapped
  obtain ⟨taken, counted, same⟩ := allocFrame_taken answered
    (mapAddr_advances rest).nulls_le enough
  have tables_eq : middle.tables = t.tables := by rw [same]
  have fresh := Pmm.Fresh.of_taken taken
  refine (guarded.mark taken.marked tables_eq (by rw [same])).mapAddr
    (fun _ => ?_) rest
    (enough.trans counted.symm)
  rw [alignAddr_of_aligned fresh.aligned,
    or_flags_and_signMask fresh.aligned (by decide),
    and_signMask_of_aligned fresh.aligned (lt_trans fresh.toNat_lt (by decide))]
  refine .inr ⟨fresh.of_marked guarded.marked,
    (taken.used_iff guarded.marks _).mpr (.inr rfl), fun isTable => ?_⟩
  rw [IsTable, tables_eq] at isTable
  exact fresh.free.2 (guarded.tree.used new isTable)

end Guarded

/-- Calls that show shared frames only. -/
theorem Built.guarded
    {calls : List MapCall}
    (built : Built root t calls next)
    (guarded : Guarded s shared root t)
    (given : ∀ call ∈ calls, call.flags &&& 5#64 = 5#64 →
      (alignAddr call.physical ||| call.flags) &&& signMask ∈ shared)
    (enough : next.nulls = t.nulls) :
    Guarded s shared root next := by
  induction built with
  | start => exact guarded
  | @call calls middle last call before stepped inductionHypothesis =>
      have early := before.advances.nulls_le
      have late := (mapAddr_advances stepped).nulls_le
      have kept := inductionHypothesis
        (fun other member => given other (List.mem_cons_of_mem _ member))
        (by omega)
      exact kept.mapAddr (fun user => .inl (given call (by simp) user)) stepped
        (by omega)
  | mark before marked inductionHypothesis =>
      exact (inductionHypothesis given enough).mark marked rfl rfl

end Machine

/-! ## `init_thread_vmm` -/

/-- The frames that all threads share: those of the kernel's image and of the
framebuffer. -/
def KernelInfo.SharedFrame (info : KernelInfo) (frame : Word) : Prop :=
  (∃ entry ∈ info.ke, ∃ i, i < entry.numPages ∧
      frame = alignAddr (Pmm.pageAddress entry.paddr i) &&& signMask) ∨
    ∃ i, i < info.bufferPages ∧
      frame = alignAddr (Pmm.pageAddress info.buffer i) &&& signMask

/-- A call for user mode maps a frame that all threads share. -/
def KernelInfo.ShowsShared (info : KernelInfo) (call : MapCall) : Prop :=
  call.flags &&& 5#64 = 5#64 →
    info.SharedFrame ((alignAddr call.physical ||| call.flags) &&& signMask)

namespace Machine

variable {s t next : Machine} {root : Word} {info : KernelInfo}

/-- The frame of an entry that is made for user mode. -/
theorem user_frame (physical : Word) :
    (alignAddr physical ||| userPtEntry) &&& signMask =
      alignAddr physical &&& signMask :=
  or_flags_and_signMask (by rw [alignAddr_toNat]; omega) (by decide)

theorem mapKernelEntries_shares
    {entries : List KernelEntry}
    (listed : ∀ entry ∈ entries, entry ∈ info.ke)
    (mapped : mapKernelEntries root entries t = some next) :
    BuiltBy info.ShowsShared root t next := by
  induction entries generalizing t with
  | nil =>
      obtain rfl := Option.some.inj mapped
      exact ⟨[], Built.start, by simp⟩
  | cons entry entries inductionHypothesis =>
      obtain ⟨middle, first, rest⟩ := Option.bind_eq_some_iff.mp mapped
      refine BuiltBy.trans ⟨_, mapRange_built first, fun call member _ => ?_⟩
        (inductionHypothesis (fun other member =>
          listed other (List.mem_cons_of_mem _ member)) rest)
      obtain ⟨i, below, rfl⟩ := mem_rangeCalls.mp member
      exact .inl ⟨entry, listed entry List.mem_cons_self, i, below,
        user_frame _⟩

/-- A call for the kernel. -/
theorem showsShared_of_kernel
    {call : MapCall}
    (kernel : call.flags &&& 5#64 ≠ 5#64) :
    info.ShowsShared call := fun user => absurd user kernel

/-- Of the mappings before the switch, those of the image and of the framebuffer
are for user mode. -/
theorem mapThread_shares
    (mapped : mapThread info root t = some next) :
    BuiltBy info.ShowsShared root t next := by
  have one : ∀ {t next : Machine} {call : MapCall},
      exec root t call = some next → call.flags &&& 5#64 ≠ 5#64 →
        BuiltBy info.ShowsShared root t next := fun stepped kernel =>
    ⟨_, Built.start.call stepped, fun _ member =>
      List.mem_singleton.mp member ▸ showsShared_of_kernel kernel⟩
  obtain ⟨s1, first, mapped⟩ := Option.bind_eq_some_iff.mp mapped
  obtain ⟨s2, second, mapped⟩ := Option.bind_eq_some_iff.mp mapped
  obtain ⟨s3, entries, mapped⟩ := Option.bind_eq_some_iff.mp mapped
  obtain ⟨s4, buffer, mapped⟩ := Option.bind_eq_some_iff.mp mapped
  obtain ⟨s5, lapic, mapped⟩ := Option.bind_eq_some_iff.mp mapped
  obtain ⟨s6, heap, pmm⟩ := Option.bind_eq_some_iff.mp mapped
  have root_shares := @one t s1 ⟨root, root, kernelPtEntry⟩ first
    kernel_not_user
  have stack_shares := @one s1 s2 ⟨info.stack, vaddr info.stack, kernelPtEntry⟩
    second kernel_not_user
  have image := mapKernelEntries_shares (fun _ member => member) entries
  have screen : BuiltBy info.ShowsShared root s3 s4 := by
    obtain ⟨unmarked, range, rfl⟩ := Option.map_eq_some_iff.mp buffer
    refine ⟨_, (mapRange_built range).mark (Pmm.Marked.pmmSetArea unmarked.pmm
      info.buffer info.bufferPages), fun call member _ => ?_⟩
    obtain ⟨i, below, rfl⟩ := mem_rangeCalls.mp member
    exact .inr ⟨i, below, user_frame _⟩
  have device : BuiltBy info.ShowsShared root s4 s5 := by
    obtain ⟨calls, built, known, -⟩ := mapLapic_built lapic
    refine ⟨calls, built, fun call member => ?_⟩
    obtain ⟨-, rfl⟩ := known call member
    have lapic_not_user :
        (kernelPtEntry ||| 1#64 <<< 4) &&& 5#64 ≠ 5#64 := by decide
    exact showsShared_of_kernel lapic_not_user
  have heap_shares : BuiltBy info.ShowsShared root s5 s6 :=
    (mapHeap_built heap).mono fun call kernel =>
      showsShared_of_kernel (kernel.1 ▸ kernel_not_user)
  have bitmap : BuiltBy info.ShowsShared root s6 next := by
    refine ⟨_, mapRange_built pmm, fun call member => ?_⟩
    obtain ⟨i, below, rfl⟩ := mem_rangeCalls.mp member
    exact showsShared_of_kernel kernel_not_user
  exact (((((root_shares.trans stack_shares).trans image).trans screen).trans
    device).trans heap_shares).trans bitmap

/-- A root that has been taken and cleaned shows nothing. -/
theorem Guarded.of_allocFrame
    {shared : Set Word} {allocated : Machine}
    (marks : s.pmm.Marks)
    (answered : s.allocFrame = some (root, allocated))
    (enough : allocated.nulls = s.nulls) :
    Guarded s shared root (allocated.cleanTable root) := by
  obtain ⟨taken, -, same⟩ := allocFrame_taken answered le_rfl enough
  obtain ⟨cleared, tree⟩ := cleanTable_tree marks taken
  refine ⟨⟨tree, taken.marked.marks marks, taken.marked, ?_⟩, ?_, ?_,
    by rw [same]; rfl⟩
  · intro table isTable
    rw [RadixTree.member_of_cleared cleared isTable]
    exact Pmm.Fresh.of_taken taken
  · rintro address frame ⟨user, -⟩
    have empty : (allocated.cleanTable root).leafAt root address = 0#64 :=
      RadixTree.leafAt_of_none (RadixTree.nodeAt_of_cleared cleared _ _)
    rw [empty] at user
    exact absurd user (by decide)
  · exact fun src source => Spares.of_allocFrame source marks answered enough

/-- The rounds of the window one by one. -/
theorem rounds_steps
    {heap stack : Nat}
    (ran : Machine.rounds heap stack root t = some next) :
    ∃ s1 s2, Machine.mapFrame (BitVec.ofNat 64 pageSize) root t = some s1 ∧
      Machine.mapFrame (BitVec.ofNat 64 heap) root s1 = some s2 ∧
      Machine.mapFrame (BitVec.ofNat 64 stack) root s2 = some next := by
  obtain ⟨s1, first, ran⟩ := Option.bind_eq_some_iff.mp ran
  obtain ⟨s2, second, ran⟩ := Option.bind_eq_some_iff.mp ran
  split at ran
  · cases ran
  exact ⟨s1, s2, first, second, ran⟩

theorem rounds_nulls_le
    {heap stack : Nat}
    (ran : Machine.rounds heap stack root t = some next) :
    t.nulls ≤ next.nulls := by
  obtain ⟨s1, s2, first, second, third⟩ := rounds_steps ran
  exact (mapFrame_advances first).nulls_le.trans
    ((mapFrame_advances second).nulls_le.trans
      (mapFrame_advances third).nulls_le)

/-- The three rounds of the window. -/
theorem Guarded.rounds
    {shared : Set Word} {heap stack : Nat}
    (guarded : Guarded s shared root t)
    (ran : Machine.rounds heap stack root t = some next)
    (enough : next.nulls = t.nulls) :
    Guarded s shared root next := by
  obtain ⟨s1, s2, first, second, third⟩ := rounds_steps ran
  have one := (mapFrame_advances first).nulls_le
  have two := (mapFrame_advances second).nulls_le
  have three := (mapFrame_advances third).nulls_le
  exact ((guarded.mapFrame first (by omega)).mapFrame second
    (by omega)).mapFrame third (by omega)

end Machine

/-- When `init_thread_vmm` returns and `alloc_frame` has not failed, the address
space shows shared frames and frames that were free, and no tables. -/
theorem initThreadVmm_guarded
    {info : KernelInfo} {mem : Memory} {vmm : Vmm} {s : Machine}
    {thread : Thread} {final : Space} {shared : Set Word}
    (marks : s.pmm.Marks)
    (shares : ∀ frame, info.SharedFrame frame → frame ∈ shared)
    (made : initThreadVmm info mem vmm s = some (thread, final))
    (enough : final.machine.nulls = s.nulls) :
    Machine.Guarded s shared final.vi.p4Tbl final.machine := by
  have ran := initThreadVmm_rounds info mem vmm s
  rw [made, Option.map_some] at ran
  obtain ⟨⟨_, _⟩, before, ran⟩ := Option.bind_eq_some_iff.mp ran.symm
  obtain ⟨last, rounds, same⟩ := Option.map_eq_some_iff.mp ran
  obtain ⟨machine_eq, root_eq⟩ := Prod.mk.inj same
  rw [← machine_eq, ← root_eq]
  rw [← machine_eq] at enough
  obtain ⟨⟨root, allocated⟩, answered, rest⟩ := Option.bind_eq_some_iff.mp before
  obtain ⟨prepared, mapped, same⟩ := Option.map_eq_some_iff.mp rest
  obtain ⟨rfl, rfl⟩ := Prod.mk.inj same
  clear ran before rest same
  simp only at mapped rounds ⊢
  obtain ⟨calls, built, given⟩ := Machine.mapThread_shares mapped
  have nulls0 := (Machine.allocFrame_advances answered).nulls_le
  have nulls1 := built.advances.nulls_le
  have nulls2 := Machine.rounds_nulls_le rounds
  have cleaned : (allocated.cleanTable root).nulls = allocated.nulls := rfl
  have loaded : (prepared.loadCr3 root).nulls = prepared.nulls := rfl
  have switched : (last.loadCr3 (paddr last.pml4)).nulls = last.nulls := rfl
  have start : Machine.Guarded s shared root (allocated.cleanTable root) :=
    Machine.Guarded.of_allocFrame marks answered (by omega)
  have image := built.guarded start
    (fun call member user => shares _ (given call member user)) (by omega)
  have inside : Machine.Guarded s shared root (prepared.loadCr3 root) :=
    image.mark (Pmm.Marked.refl _) rfl rfl
  have window := inside.rounds rounds (by omega)
  exact window.mark (Pmm.Marked.refl _) rfl rfl

end PivotOs
