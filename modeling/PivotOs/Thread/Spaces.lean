import PivotOs.Thread.Isolation
import PivotOs.Thread.SelfMap
import PivotOs.Library.Runs

/-!
# Address spaces over a run

The kernel creates threads, maps pages for itself, and takes frames and gives them
back, in any order.  No thread ever reaches a page table, a frame that the kernel
holds or a free frame, and two threads reach a frame in common only if it is one of
those that all threads share.
-/

namespace PivotOs

open Paging

/-- The machine, the page tables of the threads and the frames that the kernel
holds. -/
structure Spaces where
  /-- The machine. -/
  machine : Machine
  /-- `vmm.p4_tbl` of the threads. -/
  threads : List Word
  /-- Frames that the kernel got from `alloc_frame`. -/
  held : List Word

namespace Spaces

/-- The page tables of the kernel and of the threads. -/
def roots (s : Spaces) : List Word := s.machine.pml4 :: s.threads

/-- What the kernel does with frames and page tables. -/
inductive Call
  /-- `init_thread_vmm`. -/
  | create (info : KernelInfo) (window : Memory) (vmm : Vmm)
  /-- `map_addr` in the kernel's own page table. -/
  | map (physical virtual flags : Word)
  /-- `alloc_frame`. -/
  | take
  /-- `pmm_clear_bit`, for a frame that is held. -/
  | give (frame : Word)

/-- The machine goes on when `alloc_frame` has not failed. -/
def proceed (s : Spaces) (next : Machine) : Option Spaces :=
  if next.nulls = s.machine.nulls then some { s with machine := next } else none

/-- Carry out one call. -/
def step (s : Spaces) : Call → Option Spaces
  | .create info window vmm =>
      (initThreadVmm info window vmm s.machine).bind fun made =>
        (s.proceed made.2.machine).map fun s =>
          { s with threads := made.2.vi.p4Tbl :: s.threads }
  | .map physical virtual flags =>
      (s.machine.mapAddr physical virtual flags s.machine.pml4).bind s.proceed
  | .take =>
      s.machine.allocFrame.bind fun result =>
        (s.proceed result.2).map fun s => { s with held := result.1 :: s.held }
  | .give frame =>
      if frame ∈ s.held then
        some
          { s with
            machine :=
              { s.machine with pmm := s.machine.pmm.pmmClearBit frame }
            held := s.held.erase frame }
      else none

/-- Two page tables have no table in common. -/
def Separate (t : Machine) (left right : Word) : Prop :=
  ∀ table, t.IsTable left table → ¬ t.IsTable right table

/-- A frame in use, free in `m`, that is no table and that the kernel does not
hold. -/
structure Own (m : Pmm) (s : Spaces) (frame : Word) : Prop where
  /-- It was free. -/
  free_before : m.Free (frameOf frame)
  /-- It is in use. -/
  used : s.machine.pmm.Used (frameOf frame)
  /-- The kernel does not hold it. -/
  not_held : frame ∉ s.held
  /-- It is no table. -/
  not_table : ∀ root ∈ s.roots, ¬ s.machine.IsTable root frame

/-- Two address spaces show user mode the same frames only where all do. -/
def Private (shared : Set Word) (t : Machine) (left right : Word) : Prop :=
  ∀ here there frame, t.UserLeaf left here frame → t.UserLeaf right there frame →
    frame ∈ shared

/-- What holds in every state of a run from the bitmap `m`. -/
structure Inv (m : Pmm) (shared : Set Word) (s : Spaces) : Prop where
  /-- The bitmap can mark what it hands out. -/
  marks : s.machine.pmm.Marks
  /-- Free frames were free. -/
  free_before : ∀ k, s.machine.pmm.Free k → m.Free k
  /-- Page tables are trees in frames in use. -/
  trees : ∀ root ∈ s.roots, s.machine.Tree root
  /-- They have no table in common. -/
  separate : s.roots.Pairwise (Separate s.machine)
  /-- Shared frames are not free. -/
  reserved : ∀ frame ∈ shared, ¬ s.machine.pmm.Free (frameOf frame)
  /-- Nor are they tables. -/
  shared_not_table : ∀ frame ∈ shared, ∀ root ∈ s.roots,
    ¬ s.machine.IsTable root frame
  /-- What is shown to user mode is shared or the thread's own. -/
  shown : ∀ root ∈ s.threads, ∀ address frame,
    s.machine.UserLeaf root address frame → frame ∈ shared ∨ Own m s frame
  /-- Threads keep their frames to themselves. -/
  apart : s.threads.Pairwise (Private shared s.machine)
  /-- Held frames are in use. -/
  held_used : ∀ frame ∈ s.held, s.machine.pmm.Used (frameOf frame)
  /-- They were free. -/
  held_before : ∀ frame ∈ s.held, m.Free (frameOf frame)
  /-- Their bits can be set. -/
  held_inside : ∀ frame ∈ s.held, frameOf frame ≤ s.machine.pmm.memPages
  /-- They start at frames. -/
  held_aligned : ∀ frame ∈ s.held, frame.toNat % 4096 = 0
  /-- They are no tables. -/
  held_not_table : ∀ frame ∈ s.held, ∀ root ∈ s.roots,
    ¬ s.machine.IsTable root frame
  /-- They are not shared. -/
  held_not_shared : ∀ frame ∈ s.held, ∀ other ∈ shared,
    frameOf other ≠ frameOf frame
  /-- None is held twice. -/
  held_nodup : s.held.Nodup

variable {m : Pmm} {shared : Set Word} {s next : Spaces} {t : Machine}

namespace Inv

/-- A frame that was free is neither held nor a table nor shown. -/
theorem fresh_unknown
    {frame : Word}
    (inv : Inv m shared s)
    (fresh : s.machine.pmm.Fresh frame) :
    frame ∉ shared ∧ frame ∉ s.held ∧
      (∀ root ∈ s.roots, ¬ s.machine.IsTable root frame) ∧
      ∀ root ∈ s.threads, ∀ address,
        ¬ s.machine.UserLeaf root address frame := by
  have unshared : frame ∉ shared := fun member =>
    inv.reserved frame member fresh.free
  refine ⟨unshared, fun member => fresh.free.2 (inv.held_used frame member),
    fun root member isTable =>
      fresh.free.2 ((inv.trees root member).used frame isTable), ?_⟩
  intro root member address leaf
  rcases inv.shown root member address frame leaf with inShared | own
  · exact unshared inShared
  · exact fresh.free.2 own.used

/-- Page tables change: tables are made from free frames, and what threads are shown
stays. -/
theorem advance
    (inv : Inv m shared s)
    (pml4_eq : t.pml4 = s.machine.pml4)
    (marked : s.machine.pmm.Marked t.pmm)
    (trees : ∀ root ∈ s.roots, t.Tree root)
    (separate : s.roots.Pairwise (Separate t))
    (tables : ∀ root ∈ s.roots, ∀ table, t.IsTable root table →
      s.machine.IsTable root table ∨ s.machine.pmm.Fresh table)
    (leaves : ∀ root ∈ s.threads, ∀ address,
      t.leafAt root address = s.machine.leafAt root address) :
    Inv m shared { s with machine := t } := by
  have roots_eq : ({ s with machine := t } : Spaces).roots = s.roots := by
    rw [roots, roots, pml4_eq]
  have leaf_iff : ∀ root ∈ s.threads, ∀ address frame,
      t.UserLeaf root address frame ↔
        s.machine.UserLeaf root address frame := by
    intro root member address frame
    rw [Machine.UserLeaf, Machine.UserLeaf, leaves root member address]
  exact
    { marks := marked.marks inv.marks
      free_before := fun k free => inv.free_before k (marked.free free)
      trees := roots_eq ▸ trees
      separate := roots_eq ▸ separate
      reserved := fun frame member free =>
        inv.reserved frame member (marked.free free)
      shared_not_table := by
        intro frame member root isRoot isTable
        rw [roots_eq] at isRoot
        rcases tables root isRoot frame isTable with old | fresh
        · exact inv.shared_not_table frame member root isRoot old
        · exact (inv.fresh_unknown fresh).1 member
      shown := by
        intro root member address frame leaf
        rw [leaf_iff root member] at leaf
        refine (inv.shown root member address frame leaf).imp_right fun own =>
          ⟨own.free_before, marked.used _ own.used, own.not_held, ?_⟩
        intro other isRoot isTable
        rw [roots_eq] at isRoot
        rcases tables other isRoot frame isTable with old | fresh
        · exact own.not_table other isRoot old
        · exact (inv.fresh_unknown fresh).2.2.2 root member address leaf
      apart := by
        refine inv.apart.imp_of_mem ?_
        intro left right isLeft isRight apart here there frame first second
        rw [leaf_iff left isLeft] at first
        rw [leaf_iff right isRight] at second
        exact apart here there frame first second
      held_used := fun frame member =>
        marked.used _ (inv.held_used frame member)
      held_before := inv.held_before
      held_inside := fun frame member => by
        rw [marked.memPages_eq]
        exact inv.held_inside frame member
      held_aligned := inv.held_aligned
      held_not_table := by
        intro frame member root isRoot isTable
        rw [roots_eq] at isRoot
        rcases tables root isRoot frame isTable with old | fresh
        · exact inv.held_not_table frame member root isRoot old
        · exact (inv.fresh_unknown fresh).2.1 member
      held_not_shared := inv.held_not_shared
      held_nodup := inv.held_nodup }

/-- All page tables are left alone. -/
theorem spared
    (inv : Inv m shared s)
    (pml4_eq : t.pml4 = s.machine.pml4)
    (marked : s.machine.pmm.Marked t.pmm)
    (same : ∀ root ∈ s.roots, ∀ table, s.machine.IsTable root table →
      t.tables table = s.machine.tables table) :
    Inv m shared { s with machine := t } := by
  have isTable_iff : ∀ root ∈ s.roots, ∀ table,
      t.IsTable root table ↔ s.machine.IsTable root table :=
    fun root member table => RadixTree.member_of_agree (same root member)
  refine inv.advance pml4_eq marked ?_ ?_ ?_ ?_
  · intro root member
    have tree := inv.trees root member
    exact
      { distinct := RadixTree.Distinct.of_agree (same root member) tree.distinct
        used := fun table isTable => marked.used _
          (tree.used table ((isTable_iff root member table).mp isTable))
        root_aligned := tree.root_aligned
        root_ne_zero := tree.root_ne_zero }
  · refine inv.separate.imp_of_mem ?_
    intro left right isLeft isRight separate table inLeft inRight
    rw [isTable_iff left isLeft] at inLeft
    rw [isTable_iff right isRight] at inRight
    exact separate table inLeft inRight
  · exact fun root member table isTable =>
      .inl ((isTable_iff root member table).mp isTable)
  · exact fun root member address => RadixTree.leafAt_of_agree
      (same root (List.mem_cons_of_mem _ member)) (Nat.lt_succ_self 3)

end Inv

theorem proceed_eq_some
    (proceeded : s.proceed t = some next) :
    t.nulls = s.machine.nulls ∧ next = { s with machine := t } := by
  rw [proceed] at proceeded
  split at proceeded
  · next enough => exact ⟨enough, (Option.some.inj proceeded).symm⟩
  · cases proceeded

theorem Separate.symm
    {left right : Word}
    (separate : Separate t left right) :
    Separate t right left :=
  fun table inRight inLeft => separate table inLeft inRight

namespace Inv

/-- The kernel's page table and one of a thread have no table in common. -/
theorem kernel_apart
    {root : Word}
    (inv : Inv m shared s)
    (member : root ∈ s.threads) :
    Machine.Apart root s.machine.pml4 s.machine where
  source := inv.trees root (List.mem_cons_of_mem _ member)
  target := inv.trees s.machine.pml4 List.mem_cons_self
  marks := inv.marks
  separate := (((List.pairwise_cons.mp inv.separate).1 root member).symm)

theorem map
    {physical virtual flags : Word}
    (inv : Inv m shared s)
    (stepped : s.step (.map physical virtual flags) = some next) :
    Inv m shared next := by
  obtain ⟨t, mapped, proceeded⟩ := Option.bind_eq_some_iff.mp stepped
  obtain ⟨enough, rfl⟩ := proceed_eq_some proceeded
  by_cases null : physical = 0#64 ∨ virtual = 0#64
  · rw [Machine.mapAddr_null _ _ _ null] at mapped
    obtain rfl := Option.some.inj mapped
    exact inv
  obtain ⟨physical_ne, virtual_ne⟩ := not_or.mp null
  have kernel := inv.trees s.machine.pml4 List.mem_cons_self
  obtain ⟨tables, grown, -⟩ := Machine.mapAddr_maps kernel inv.marks physical_ne
    virtual_ne mapped enough
  have spares : ∀ root ∈ s.threads,
      Machine.Spares root s.machine.pml4 s.machine t := fun root member =>
    Machine.mapAddr_spares (inv.kernel_apart member) physical_ne virtual_ne
      mapped enough
  refine inv.advance grown.pml4_eq grown.marked ?_ ?_ ?_ ?_
  · exact List.forall_mem_cons.mpr
      ⟨grown.tree, fun root member => (spares root member).apart.source⟩
  · obtain ⟨-, threads⟩ := List.pairwise_cons.mp inv.separate
    refine List.pairwise_cons.mpr ⟨fun root member =>
      Separate.symm (spares root member).apart.separate, ?_⟩
    refine threads.imp_of_mem ?_
    intro left right isLeft isRight separate table inLeft inRight
    rw [(spares left isLeft).isTable_iff] at inLeft
    rw [(spares right isRight).isTable_iff] at inRight
    exact separate table inLeft inRight
  · refine List.forall_mem_cons.mpr ⟨fun table isTable => ?_,
      fun root member table isTable =>
        .inl (((spares root member).isTable_iff table).mp isTable)⟩
    exact ((grown.isTable_iff table).mp isTable).imp_right
      (grown.fresh table)
  · exact fun root member => (spares root member).leafAt_eq

theorem take
    (inv : Inv m shared s)
    (stepped : s.step .take = some next) :
    Inv m shared next := by
  obtain ⟨⟨frame, t⟩, answered, rest⟩ := Option.bind_eq_some_iff.mp stepped
  obtain ⟨middle, proceeded, rfl⟩ := Option.map_eq_some_iff.mp rest
  obtain ⟨enough, rfl⟩ := proceed_eq_some proceeded
  obtain ⟨taken, -, same⟩ :=
    Machine.allocFrame_taken answered le_rfl enough
  have fresh := Pmm.Fresh.of_taken taken
  obtain ⟨-, unheld, unlisted, unseen⟩ := inv.fresh_unknown fresh
  have tables_eq : t.tables = s.machine.tables := by rw [same]
  have pml4_eq : t.pml4 = s.machine.pml4 := by rw [same]
  have kept := inv.spared pml4_eq taken.marked
    (fun _ _ _ _ => by rw [tables_eq])
  have roots_eq : ({ s with machine := t } : Spaces).roots = s.roots := by
    rw [roots, roots, pml4_eq]
  have notTable : ∀ root ∈ ({ s with machine := t } : Spaces).roots,
      ¬ t.IsTable root frame := by
    intro root member isTable
    rw [Machine.IsTable, tables_eq] at isTable
    exact unlisted root (roots_eq ▸ member) isTable
  exact
    { kept with
      shown := by
        intro root member address other leaf
        refine (kept.shown root member address other leaf).imp_right fun own =>
          ⟨own.free_before, own.used, ?_, own.not_table⟩
        rintro (_ | ⟨_, old⟩)
        · rw [Machine.UserLeaf, Machine.leafAt, tables_eq] at leaf
          exact unseen root member address leaf
        · exact own.not_held old
      held_used := List.forall_mem_cons.mpr
        ⟨(taken.used_iff inv.marks _).mpr (.inr rfl), kept.held_used⟩
      held_before := List.forall_mem_cons.mpr
        ⟨inv.free_before _ fresh.free, kept.held_before⟩
      held_inside := List.forall_mem_cons.mpr
        ⟨taken.marked.memPages_eq ▸ inv.marks _ fresh.free, kept.held_inside⟩
      held_aligned := List.forall_mem_cons.mpr
        ⟨fresh.aligned, kept.held_aligned⟩
      held_not_table := List.forall_mem_cons.mpr
        ⟨notTable, kept.held_not_table⟩
      held_not_shared := List.forall_mem_cons.mpr
        ⟨fun other inShared same =>
          inv.reserved other inShared (same ▸ fresh.free), kept.held_not_shared⟩
      held_nodup := List.nodup_cons.mpr ⟨unheld, kept.held_nodup⟩ }

/-- Frames that are shown to user mode start at frames. -/
theorem userLeaf_aligned
    {root address frame : Word}
    (leaf : t.UserLeaf root address frame) :
    frame.toNat % 4096 = 0 := by
  rw [← leaf.2, and_signMask_toNat]
  omega

theorem give
    {frame : Word}
    (inv : Inv m shared s)
    (stepped : s.step (.give frame) = some next) :
    Inv m shared next := by
  rw [step] at stepped
  split at stepped
  swap
  · cases stepped
  next member =>
  obtain rfl := Option.some.inj stepped
  have aligned := inv.held_aligned frame member
  have used : ∀ other : Word, other.toNat % 4096 = 0 → other ≠ frame →
      s.machine.pmm.Used (frameOf other) →
        (s.machine.pmm.pmmClearBit frame).Used (frameOf other) := by
    intro other otherAligned different before
    rw [Pmm.used_pmmClearBit]
    exact ⟨before, fun same =>
      different (eq_of_frameOf_eq otherAligned aligned same.2)⟩
  have freed : ∀ k, (s.machine.pmm.pmmClearBit frame).Free k →
      s.machine.pmm.Free k ∨ k = frameOf frame := by
    rintro k ⟨inside, unused⟩
    rw [Pmm.pmmClearBit_bitmapEntries] at inside
    rw [Pmm.used_pmmClearBit, not_and_or, not_not] at unused
    exact unused.imp (fun unused => ⟨inside, unused⟩) And.right
  have kept : ∀ other ∈ s.held.erase frame, other ∈ s.held ∧ other ≠ frame :=
    fun other inRest =>
      ⟨List.mem_of_mem_erase inRest,
        ((inv.held_nodup.mem_erase_iff).mp inRest).1⟩
  exact
    { marks := by
        intro k free
        rw [Pmm.pmmClearBit_memPages]
        rcases freed k free with old | rfl
        · exact inv.marks k old
        · exact inv.held_inside frame member
      free_before := by
        intro k free
        rcases freed k free with old | rfl
        · exact inv.free_before k old
        · exact inv.held_before frame member
      trees := fun root isRoot =>
        { inv.trees root isRoot with
          used := fun table isTable => used table
            ((inv.trees root isRoot).isTable_aligned isTable)
            (fun same => inv.held_not_table frame member root isRoot
              (same ▸ isTable))
            ((inv.trees root isRoot).used table isTable) }
      separate := inv.separate
      reserved := by
        intro other inShared free
        rcases freed _ free with old | same
        · exact inv.reserved other inShared old
        · exact inv.held_not_shared frame member other inShared same
      shared_not_table := inv.shared_not_table
      shown := by
        intro root isThread address other leaf
        refine (inv.shown root isThread address other leaf).imp_right fun own =>
          ⟨own.free_before, used other (userLeaf_aligned leaf)
            (fun same => own.not_held (same ▸ member)) own.used,
            fun inRest => own.not_held (kept other inRest).1, own.not_table⟩
      apart := inv.apart
      held_used := fun other inRest => used other
        (inv.held_aligned other (kept other inRest).1) (kept other inRest).2
        (inv.held_used other (kept other inRest).1)
      held_before := fun other inRest =>
        inv.held_before other (kept other inRest).1
      held_inside := fun other inRest => by
        rw [Pmm.pmmClearBit_memPages]
        exact inv.held_inside other (kept other inRest).1
      held_aligned := fun other inRest =>
        inv.held_aligned other (kept other inRest).1
      held_not_table := fun other inRest =>
        inv.held_not_table other (kept other inRest).1
      held_not_shared := fun other inRest =>
        inv.held_not_shared other (kept other inRest).1
      held_nodup := inv.held_nodup.erase frame }

/-- A new address space. -/
theorem add
    {root : Word}
    (inv : Inv m shared s)
    (guarded : Machine.Guarded s.machine shared root t) :
    Inv m shared { s with machine := t, threads := root :: s.threads } := by
  have spares : ∀ other ∈ s.roots, Machine.Spares other root s.machine t :=
    fun other member => guarded.spares other (inv.trees other member)
  have kept := inv.spared guarded.pml4_eq guarded.marked
    fun other member => (spares other member).same
  have pml4_eq := guarded.pml4_eq
  have old : ∀ other ∈ t.pml4 :: s.threads, other ∈ s.roots := by
    rw [pml4_eq]
    exact fun _ => id
  have unknown := fun table (isTable : t.IsTable root table) =>
    inv.fresh_unknown (guarded.tables_fresh table isTable)
  have cases : ∀ other ∈ t.pml4 :: root :: s.threads,
      other = root ∨ other ∈ t.pml4 :: s.threads := by
    intro other member
    simp only [List.mem_cons] at member ⊢
    tauto
  have leaf_iff : ∀ other ∈ s.threads, ∀ address frame,
      t.UserLeaf other address frame ↔
        s.machine.UserLeaf other address frame := by
    intro other member address frame
    rw [Machine.UserLeaf, Machine.UserLeaf,
      (spares other (List.mem_cons_of_mem _ member)).leafAt_eq]
  exact
    { marks := kept.marks
      free_before := kept.free_before
      trees := by
        intro other member
        rcases cases other member with rfl | before
        · exact guarded.tree
        · exact kept.trees other before
      separate := by
        obtain ⟨kernel, threads⟩ := List.pairwise_cons.mp kept.separate
        refine List.pairwise_cons.mpr ⟨List.forall_mem_cons.mpr
          ⟨(spares t.pml4 (old _ List.mem_cons_self)).apart.separate, kernel⟩,
          List.pairwise_cons.mpr ⟨fun other member => Separate.symm
            (spares other (List.mem_cons_of_mem _ member)).apart.separate,
            threads⟩⟩
      reserved := kept.reserved
      shared_not_table := by
        intro frame inShared other member isTable
        rcases cases other member with rfl | before
        · exact (unknown frame isTable).1 inShared
        · exact kept.shared_not_table frame inShared other before isTable
      shown := by
        intro viewer member address frame leaf
        rcases List.mem_cons.mp member with rfl | before
        · refine (guarded.shown address frame leaf).imp_right fun own => ?_
          obtain ⟨fresh, used, notTable⟩ := own
          refine ⟨inv.free_before _ fresh.free, used,
            (inv.fresh_unknown fresh).2.1, ?_⟩
          intro other isRoot isTable
          rcases cases other isRoot with rfl | before
          · exact notTable isTable
          · rw [(spares other (old other before)).isTable_iff] at isTable
            exact (inv.fresh_unknown fresh).2.2.1 other (old other before)
              isTable
        · refine (kept.shown viewer before address frame leaf).imp_right
            fun own => ⟨own.free_before, own.used, own.not_held, ?_⟩
          intro other isRoot isTable
          rcases cases other isRoot with rfl | listed
          · exact (unknown frame isTable).2.2.2 viewer before address
              ((leaf_iff viewer before address frame).mp leaf)
          · exact own.not_table other listed isTable
      apart := by
        refine List.pairwise_cons.mpr ⟨?_, kept.apart⟩
        intro other member here there frame mine theirs
        rcases guarded.shown here frame mine with inShared | ⟨fresh, -⟩
        · exact inShared
        · exact absurd ((leaf_iff other member there frame).mp theirs)
            ((inv.fresh_unknown fresh).2.2.2 other member there)
      held_used := kept.held_used
      held_before := kept.held_before
      held_inside := kept.held_inside
      held_aligned := kept.held_aligned
      held_not_table := by
        intro frame isHeld other member isTable
        rcases cases other member with rfl | before
        · exact (unknown frame isTable).2.1 isHeld
        · exact kept.held_not_table frame isHeld other before isTable
      held_not_shared := kept.held_not_shared
      held_nodup := kept.held_nodup }

theorem create
    {info : KernelInfo} {window : Memory} {vmm : Vmm}
    (inv : Inv m shared s)
    (shares : ∀ frame, info.SharedFrame frame → frame ∈ shared)
    (stepped : s.step (.create info window vmm) = some next) :
    Inv m shared next := by
  obtain ⟨⟨thread, final⟩, made, rest⟩ := Option.bind_eq_some_iff.mp stepped
  obtain ⟨middle, proceeded, rfl⟩ := Option.map_eq_some_iff.mp rest
  obtain ⟨enough, rfl⟩ := proceed_eq_some proceeded
  exact inv.add (initThreadVmm_guarded inv.marks shares made enough)

/-- Before the first call. -/
theorem start
    (tree : t.Tree t.pml4)
    (marks : t.pmm.Marks)
    (reserved : ∀ frame ∈ shared, ¬ t.pmm.Free (frameOf frame))
    (notTable : ∀ frame ∈ shared, ¬ t.IsTable t.pml4 frame) :
    Inv t.pmm shared { machine := t, threads := [], held := [] } where
  marks := marks
  free_before := fun _ => id
  trees := List.forall_mem_singleton.mpr tree
  separate := List.pairwise_singleton _ _
  reserved := reserved
  shared_not_table := fun frame member =>
    List.forall_mem_singleton.mpr (notTable frame member)
  shown := by simp
  apart := List.Pairwise.nil
  held_used := by simp
  held_before := by simp
  held_inside := by simp
  held_aligned := by simp
  held_not_table := by simp
  held_not_shared := by simp
  held_nodup := List.nodup_nil

end Inv

/-- A thread shows user mode no frames but these and its own. -/
def Call.Shows (shared : Set Word) : Call → Prop
  | .create info _ _ => ∀ frame, info.SharedFrame frame → frame ∈ shared
  | .map _ _ _ => True
  | .take => True
  | .give _ => True

theorem Inv.step
    {call : Call}
    (inv : Inv m shared s)
    (shows : call.Shows shared)
    (stepped : s.step call = some next) :
    Inv m shared next := by
  cases call with
  | create info window vmm => exact inv.create shows stepped
  | map physical virtual flags => exact inv.map stepped
  | take => exact inv.take stepped
  | give frame => exact inv.give stepped

/-- Two threads of the small machine, and a frame of the kernel. -/
def sampleCalls : List Call :=
  [.create (sampleInfo 0x2000#64) (fun _ => 0#8) blankVmm, .take,
    .create (sampleInfo 0x2000#64) (fun _ => 0#8) blankVmm,
    .map 0x30000#64 0xFFFF900000002000#64 kernelPtEntry, .give 0x53000#64]

end Spaces
end PivotOs
