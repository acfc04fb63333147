import PivotOs.Loader.Identity
import PivotOs.Paging.SelfMap

/-!
# `unmap_addr`

`map_addr` and `translate_addr` reach a table at its physical address, at which
every table is mapped when it is made.  `unmap_addr` goes down the same tables,
but reaches all of them below the root through their `VADDR` addresses, at
which nothing maps them: such an address belongs to the window of the kernel's
VMM, or to whatever else was mapped there last.  What the processor finds there
decides whether `unmap_addr` faults, clears a word of another frame, or works.
-/

namespace PivotOs

open Paging

namespace Machine

/-- A table pointer that is dereferenced. -/
structure Deref where
  /-- The table it stands for. -/
  frame : Word
  /-- The pointer. -/
  pointer : Word
  /-- The frame that the processor finds there. -/
  found : Option Word

/-- Dereference a table pointer.  Where nothing is mapped the processor
faults. -/
def through (s : Machine) (frame pointer : Word)
    (use : Word → List Deref × Option Machine) :
    List Deref × Option Machine :=
  let found := mmu s.tables (s.cr3 &&& signMask) pointer
  match found with
  | none => ([⟨frame, pointer, none⟩], none)
  | some table =>
      (⟨frame, pointer, some table⟩ :: (use table).1, (use table).2)

/-- `unmap_addr`, with the table pointers it dereferences; `none` after a
fault.  What stands behind its `return` is never reached. -/
def unmapAddr (addr p4Tbl : Word) (s : Machine) :
    List Deref × Option Machine :=
  let p4Tbl := if p4Tbl = 0#64 then s.pml4 else p4Tbl
  s.through p4Tbl p4Tbl fun table =>
  let p4 := s.tables table (p4Entry addr)
  if p4 &&& 1#64 = 0#64 then ([], some s) else
  s.through (p4 &&& signMask) (vaddr (p4 &&& signMask)) fun table =>
  let p3 := s.tables table (p3Entry addr)
  if p3 &&& 1#64 = 0#64 then ([], some s) else
  s.through (p3 &&& signMask) (vaddr (p3 &&& signMask)) fun table =>
  let p2 := s.tables table (p2Entry addr)
  if p2 &&& 1#64 = 0#64 then ([], some s) else
  s.through (p2 &&& signMask) (vaddr (p2 &&& signMask)) fun table =>
  ([], some { s with
    tables := RadixTree.write s.tables table (p1Entry addr) 0#64 })

end Machine

/-! ## Address spaces and how they were made -/

/-- The entry that was written last for a page, in a history with the newest
entry first. -/
def lastEntry (history : List (Nat × Word)) (page : Nat) : Word :=
  (history.lookup page).getD 0#64

/-- The entry that was written last for the page of a pointer leads to a
frame. -/
def PointsTo (history : List (Nat × Word)) (pointer frame : Word) : Prop :=
  tableLinks.next (lastEntry history (pageOf pointer)) = some frame

instance (history : List (Nat × Word)) (pointer frame : Word) :
    Decidable (PointsTo history pointer frame) :=
  inferInstanceAs (Decidable (_ = _))

/-- Tables made by calls of `MapAddr`, with the pages these mapped. -/
inductive Loader.Made (root : Word) : List (Nat × Word) → Loader → Prop
  /-- `ConfigurePaging` clears the root. -/
  | start {s : Loader}
      (firmware : s.Firmware root)
      (page : LowPage root)
      (notNull : root ≠ 0#64) :
      Made root []
        { s with tables := RadixTree.clear tableLinks s.tables root }
  /-- A call that succeeds. -/
  | mapped {history} {s next : Loader} {physAddr virtAddr : Word}
      (made : Made root history s)
      (ran : mapAddr physAddr virtAddr root s = (.success, next)) :
      Made root ((pageOf virtAddr, physAddr ||| kernelPtEntry) :: history) next
  /-- A call that fails. -/
  | failed {history} {s next : Loader} {physAddr virtAddr : Word}
      (made : Made root history s)
      (ran : mapAddr physAddr virtAddr root s = (.error, next)) :
      Made root history next

/-- The kernel's address space: made by calls of `MapAddr` and then of
`map_addr`, none of which ran out of frames.  A call with a null argument does
nothing and is left out.  Frames are taken and given back at any time, but not
those of tables. -/
inductive Machine.Made (root : Word) : List (Nat × Word) → Machine → Prop
  /-- The loader is done. -/
  | loaded {history} {s : Loader} {pmm : Pmm}
      (made : Loader.Made root history s)
      (used : ∀ table, s.IsTable root table → pmm.Used (frameOf table))
      (marks : pmm.Marks) :
      Made root history (s.machine root pmm)
  /-- A call of `map_addr`. -/
  | mapped {history} {s next : Machine} {call : MapCall}
      (made : Made root history s)
      (physical_ne : call.physical ≠ 0#64)
      (virtual_ne : call.virtual ≠ 0#64)
      (stepped : exec root s call = some next)
      (enough : next.nulls = s.nulls) :
      Made root ((pageOf call.virtual,
        alignAddr call.physical ||| call.flags) :: history) next
  /-- Frames are taken and given back. -/
  | frames {history} {s : Machine} {pmm : Pmm}
      (made : Made root history s)
      (used : ∀ table, s.IsTable root table → pmm.Used (frameOf table))
      (marks : pmm.Marks) :
      Made root history { s with pmm := pmm }

/-- Pages that no table is mapped at when it is made. -/
def Settled (root : Word) (page : Nat) : Prop :=
  2 ^ 35 ≤ page ∨ page = pageOf root

theorem lastEntry_cons
    (written : Nat × Word) (history : List (Nat × Word)) (page : Nat) :
    lastEntry (written :: history) page =
      if page = written.1 then written.2 else lastEntry history page := by
  rw [lastEntry, List.lookup_cons]
  by_cases same : page = written.1
  · simp [same]
  · simp [same, lastEntry, beq_eq_false_iff_ne.mpr same]

namespace Loader

/-- The history tells the last entries of all pages but those of the lower
half, and that of the root. -/
structure Recorded (root : Word) (history : List (Nat × Word))
    (s : Loader) : Prop where
  /-- The tables form a tree. -/
  sound : s.Sound root
  /-- The root is a page. -/
  page : LowPage root
  /-- It is not null. -/
  notNull : root ≠ 0#64
  /-- The entries are those of the history. -/
  leaves : ∀ address, Settled root (pageOf address) →
    s.leafAt root address = lastEntry history (pageOf address)

/-- Making tables writes no settled page but the one that is asked for. -/
theorem Recorded.leaf_kept
    {root : Word} {history : List (Nat × Word)} {s next : Loader}
    {tables : List Word} {touched : Set Nat}
    (recorded : Recorded root history s)
    (grew : Grew root tables touched s next)
    {address : Word}
    (settled : Settled root (pageOf address))
    (outside : pageOf address ∉ touched) :
    next.leafAt root address = s.leafAt root address := by
  refine grew.leaf_other address outside fun table member same => ?_
  have listed := grew.listed table member
  have page := recorded.sound.paged table listed
  rcases settled with high | own
  · have low := page.pageOf_lt
    omega
  · have rootTable := page.eq_of_pageOf_eq recorded.page (own.symm.trans same)
    exact recorded.sound.unseen table listed
      (rootTable ▸ RadixTree.member_root (by decide))

theorem Made.recorded
    {root : Word} {history : List (Nat × Word)} {s : Loader}
    (made : Made root history s) :
    Recorded root history s := by
  induction made with
  | start firmware page notNull =>
      refine ⟨firmware.sound_cleared, page, notNull, fun address _ => ?_⟩
      refine RadixTree.leafAt_of_none
        (RadixTree.nodeAt_of_cleared (fun index => ?_) _ _)
      simp [RadixTree.clear]
  | @mapped history s next physAddr virtAddr made ran inductionHypothesis =>
      have maps := mapAddr_maps inductionHypothesis.sound physAddr virtAddr
      rw [ran] at maps
      obtain ⟨tables, grew, leaf⟩ := maps.of_success rfl
      refine ⟨grew.sound, inductionHypothesis.page,
        inductionHypothesis.notNull, fun address settled => ?_⟩
      rw [lastEntry_cons]
      split
      · rename_i same
        rw [leafAt_eq_of_pageOf_eq same]
        exact leaf
      · rename_i different
        rw [inductionHypothesis.leaf_kept grew settled (by simpa using different),
          inductionHypothesis.leaves address settled]
  | @failed history s next physAddr virtAddr made ran inductionHypothesis =>
      have maps := mapAddr_maps inductionHypothesis.sound physAddr virtAddr
      rw [ran] at maps
      obtain ⟨tables, ⟨-, grew⟩ | ⟨wrong, -⟩⟩ := maps
      · refine ⟨grew.sound, inductionHypothesis.page,
          inductionHypothesis.notNull, fun address settled => ?_⟩
        rw [inductionHypothesis.leaf_kept grew settled (by simp),
          inductionHypothesis.leaves address settled]
      · contradiction

end Loader

namespace Machine

/-- The same for the kernel, which runs on these tables. -/
structure Recorded (root : Word) (history : List (Nat × Word))
    (s : Machine) : Prop where
  /-- The tables form a tree. -/
  tree : s.Tree root
  /-- The bitmap works. -/
  marks : s.pmm.Marks
  /-- The root is a page. -/
  page : Loader.LowPage root
  /-- It is the kernel's own. -/
  pml4_eq : s.pml4 = root
  /-- It is in use. -/
  cr3_eq : s.cr3 = root
  /-- The entries are those of the history. -/
  leaves : ∀ address, Settled root (pageOf address) →
    s.leafAt root address = lastEntry history (pageOf address)

/-- Making tables writes no settled page but the one that is asked for. -/
theorem Recorded.leaf_kept
    {root : Word} {history : List (Nat × Word)} {s next : Machine}
    {taken tables : List Word} {touched : Set Nat}
    (recorded : Recorded root history s)
    (grown : Grown root taken tables touched s next)
    {address : Word}
    (settled : Settled root (pageOf address))
    (outside : pageOf address ∉ touched) :
    next.leafAt root address = s.leafAt root address := by
  refine grown.leaf_other address outside fun table member same => ?_
  have fresh := grown.fresh table (grown.tables_taken table member)
  rcases settled with high | own
  · have small := fresh.small
    rw [fresh.pageOf_eq] at same
    omega
  · have low := recorded.page.low
    have small : frameOf root < 2 ^ 36 := by
      unfold frameOf pageSize
      omega
    exact fresh.pageOf_ne small (recorded.tree.used root (isTable_root s root))
      (own.symm.trans same)

theorem Made.recorded
    {root : Word} {history : List (Nat × Word)} {s : Machine}
    (made : Made root history s) :
    Recorded root history s := by
  induction made with
  | loaded made used marks =>
      have before := made.recorded
      exact
        { tree :=
            { distinct := before.sound.distinct
              used := used
              root_aligned := before.page.aligned
              root_ne_zero := before.notNull }
          marks := marks
          page := before.page
          pml4_eq := rfl
          cr3_eq := rfl
          leaves := before.leaves }
  | @mapped history s next call made physical_ne virtual_ne stepped enough
      inductionHypothesis =>
      obtain ⟨tables, grown, leaf, -⟩ := mapAddr_maps inductionHypothesis.tree
        inductionHypothesis.marks physical_ne virtual_ne stepped enough
      refine
        { tree := grown.tree
          marks := grown.marks inductionHypothesis.marks
          page := inductionHypothesis.page
          pml4_eq := grown.pml4_eq.trans inductionHypothesis.pml4_eq
          cr3_eq := grown.cr3_eq.trans inductionHypothesis.cr3_eq
          leaves := ?_ }
      intro address settled
      rw [lastEntry_cons]
      split
      · rename_i same
        rw [leafAt_eq_of_pageOf_eq same]
        exact leaf
      · rename_i different
        rw [inductionHypothesis.leaf_kept grown settled
            (by simpa using different),
          inductionHypothesis.leaves address settled]
  | frames made used marks inductionHypothesis =>
      exact
        { inductionHypothesis with
          tree := { inductionHypothesis.tree with used := used }
          marks := marks }

/-- What the processor finds at a settled address. -/
theorem Recorded.mmu_eq_some_iff
    {root : Word} {history : List (Nat × Word)} {s : Machine}
    (recorded : Recorded root history s)
    {pointer : Word} (frame : Word)
    (settled : Settled root (pageOf pointer)) :
    mmu s.tables (s.cr3 &&& signMask) pointer = some frame ↔
      PointsTo history pointer frame := by
  have low := recorded.page.low
  rw [recorded.cr3_eq, and_signMask_of_aligned recorded.page.aligned
    (low.trans (by decide)), mmu_eq, recorded.leaves pointer settled, PointsTo]

/-! ## Unmapping -/

variable {s : Machine} {root address : Word}

/-- What `unmap_addr` should do: it dereferences pointers to the tables that
`translate_addr` reads, each of which leads to its table; afterwards the page
has no translation, every other page has the one it had, and only the entry of
the page has been written. -/
structure Unmaps (root address : Word) (s : Machine)
    (result : List Deref × Option Machine) : Prop where
  /-- Every pointer leads to its table. -/
  same : ∀ deref ∈ result.1, deref.found = some deref.frame
  /-- The tables are those of the walk, from the root down. -/
  walk : result.1.map (fun deref => some deref.frame) =
    [s.nodeAt root [], s.nodeAt root [p4Entry address],
      s.nodeAt root [p3Entry address, p4Entry address],
      s.nodeAt root (tablePath address)]
  /-- One entry is cleared. -/
  cleared : ∃ next table, result.2 = some next ∧
    s.nodeAt root (tablePath address) = some table ∧
    next = { s with
      tables := RadixTree.write s.tables table (p1Entry address) 0#64 } ∧
    next.translateAddr address root = 0#64 ∧
    ∀ other, pageOf other ≠ pageOf address →
      next.translateAddr other root = s.translateAddr other root

/-- The tables that the walk passes, from the root down. -/
theorem exists_walk
    (walked : (s.nodeAt root (tablePath address)).isSome) :
    ∃ p3Tbl p2Tbl p1Tbl,
      s.nodeAt root [p4Entry address] = some p3Tbl ∧
      s.nodeAt root [p3Entry address, p4Entry address] = some p2Tbl ∧
      s.nodeAt root (tablePath address) = some p1Tbl ∧
      tableLinks.next (s.tables root (p4Entry address)) = some p3Tbl ∧
      tableLinks.next (s.tables p3Tbl (p3Entry address)) = some p2Tbl ∧
      tableLinks.next (s.tables p2Tbl (p2Entry address)) = some p1Tbl := by
  obtain ⟨p1Tbl, third⟩ := Option.isSome_iff_exists.mp walked
  obtain ⟨p2Tbl, second, points1⟩ := Option.bind_eq_some_iff.mp third
  obtain ⟨p3Tbl, first, points2⟩ := Option.bind_eq_some_iff.mp second
  obtain ⟨top, start, points3⟩ := Option.bind_eq_some_iff.mp first
  obtain rfl := Option.some.inj start
  exact ⟨p3Tbl, p2Tbl, p1Tbl, first, second, third, points3, points2, points1⟩

theorem through_of_found
    {frame pointer : Word} {use : Word → List Deref × Option Machine}
    (found : mmu s.tables (s.cr3 &&& signMask) pointer = some frame) :
    s.through frame pointer use =
      (⟨frame, pointer, some frame⟩ :: (use frame).1, (use frame).2) := by
  rw [through, found]

/-- If every pointer leads to its table, the first one does. -/
theorem found_of_through
    {frame pointer : Word} {use : Word → List Deref × Option Machine}
    (same : ∀ deref ∈ (s.through frame pointer use).1,
      deref.found = some deref.frame) :
    mmu s.tables (s.cr3 &&& signMask) pointer = some frame := by
  rw [through] at same
  cases found : mmu s.tables (s.cr3 &&& signMask) pointer with
  | none =>
      rw [found] at same
      exact absurd (same ⟨frame, pointer, none⟩ List.mem_cons_self) (by simp)
  | some table =>
      rw [found] at same
      exact same ⟨frame, pointer, some table⟩ List.mem_cons_self

/-- If every pointer leads to its table, so do those after the first. -/
theorem same_of_through
    {frame pointer : Word} {use : Word → List Deref × Option Machine}
    (same : ∀ deref ∈ (s.through frame pointer use).1,
      deref.found = some deref.frame) :
    ∀ deref ∈ (use frame).1, deref.found = some deref.frame := by
  rw [through_of_found (found_of_through same)] at same
  exact fun deref member => same deref (List.mem_cons_of_mem _ member)

/-- The test of an entry that leads on. -/
theorem present_of_next
    {entry table : Word}
    (points : tableLinks.next entry = some table) :
    ¬ entry &&& 1#64 = 0#64 := by
  intro missing
  rw [next_eq_none_iff.mpr missing] at points
  contradiction

/-- Clearing the last entry of a page takes its translation away, and no
other. -/
theorem clear_translateAddr
    {table : Word}
    (tree : s.Tree root)
    (found : s.nodeAt root (tablePath address) = some table) :
    let next :=
      { s with
        tables := RadixTree.write s.tables table (p1Entry address) 0#64 }
    next.translateAddr address root = 0#64 ∧
      ∀ other, pageOf other ≠ pageOf address →
        next.translateAddr other root = s.translateAddr other root := by
  intro next
  obtain ⟨grown, cleared⟩ := store_grown address 0#64 tree found
  have leaves : ∀ other, next.leafAt root other =
      (s.store table (p1Entry address) 0#64).leafAt root other := fun _ => rfl
  refine ⟨?_, fun other different => ?_⟩
  · rw [translateAddr_eq _ tree.root_ne_zero, leaves, cleared]
    decide
  · rw [translateAddr_eq _ tree.root_ne_zero,
      translateAddr_eq _ tree.root_ne_zero, leaves,
      grown.leaf_other other (by simpa using different) (by simp)]

section Walk

variable {p4Tbl p3Tbl p2Tbl p1Tbl : Word}
variable
  (chosen : (if p4Tbl = 0#64 then s.pml4 else p4Tbl) = root)
  (points3 : tableLinks.next (s.tables root (p4Entry address)) = some p3Tbl)
  (points2 : tableLinks.next (s.tables p3Tbl (p3Entry address)) = some p2Tbl)
  (points1 : tableLinks.next (s.tables p2Tbl (p2Entry address)) = some p1Tbl)
include chosen points3 points2 points1

/-- With the pointers where they should lead, `unmap_addr` clears the last
entry. -/
theorem unmapAddr_of_found
    (found : mmu s.tables (s.cr3 &&& signMask) root = some root)
    (found3 : mmu s.tables (s.cr3 &&& signMask) (vaddr p3Tbl) = some p3Tbl)
    (found2 : mmu s.tables (s.cr3 &&& signMask) (vaddr p2Tbl) = some p2Tbl)
    (found1 : mmu s.tables (s.cr3 &&& signMask) (vaddr p1Tbl) = some p1Tbl) :
    unmapAddr address p4Tbl s =
      ([⟨root, root, some root⟩, ⟨p3Tbl, vaddr p3Tbl, some p3Tbl⟩,
          ⟨p2Tbl, vaddr p2Tbl, some p2Tbl⟩, ⟨p1Tbl, vaddr p1Tbl, some p1Tbl⟩],
        some { s with
          tables := RadixTree.write s.tables p1Tbl (p1Entry address) 0#64 }) := by
  rw [unmapAddr, chosen, through_of_found found]
  simp only [if_neg (present_of_next points3), next_eq_some points3,
    through_of_found found3, if_neg (present_of_next points2),
    next_eq_some points2, through_of_found found2,
    if_neg (present_of_next points1), next_eq_some points1,
    through_of_found found1]

/-- Where every pointer that `unmap_addr` dereferences leads to its table, all
four do. -/
theorem found_of_unmapAddr
    (same : ∀ deref ∈ (unmapAddr address p4Tbl s).1,
      deref.found = some deref.frame) :
    mmu s.tables (s.cr3 &&& signMask) root = some root ∧
      mmu s.tables (s.cr3 &&& signMask) (vaddr p3Tbl) = some p3Tbl ∧
      mmu s.tables (s.cr3 &&& signMask) (vaddr p2Tbl) = some p2Tbl ∧
      mmu s.tables (s.cr3 &&& signMask) (vaddr p1Tbl) = some p1Tbl := by
  rw [unmapAddr, chosen] at same
  have found := found_of_through same
  replace same := same_of_through same
  simp only [if_neg (present_of_next points3), next_eq_some points3] at same
  have found3 := found_of_through same
  replace same := same_of_through same
  simp only [if_neg (present_of_next points2), next_eq_some points2] at same
  have found2 := found_of_through same
  replace same := same_of_through same
  simp only [if_neg (present_of_next points1), next_eq_some points1] at same
  exact ⟨found, found3, found2, found_of_through same⟩

end Walk

/-- On an address that has its tables, `unmap_addr` does what it should if and
only if the last call that mapped the page of the root mapped it to the root,
and for each table below the root on the walk, the last call that mapped the
page of its `VADDR` address mapped it to that table. -/
theorem unmapAddr_unmaps_iff
    (root address p4Tbl : Word) (history : List (Nat × Word)) (s : Machine)
    (made : Made root history s)
    (chosen : p4Tbl = 0#64 ∨ p4Tbl = root)
    (walked : (s.nodeAt root (tablePath address)).isSome) :
    Unmaps root address s (unmapAddr address p4Tbl s) ↔
      PointsTo history root root ∧
        ∀ path table, path ≠ [] → path <:+ tablePath address →
          s.nodeAt root path = some table →
            PointsTo history (vaddr table) table := by
  have recorded := made.recorded
  have rootChosen : (if p4Tbl = 0#64 then s.pml4 else p4Tbl) = root := by
    rcases chosen with rfl | rfl
    · rw [if_pos rfl, recorded.pml4_eq]
    · rw [if_neg recorded.tree.root_ne_zero]
  obtain ⟨p3Tbl, p2Tbl, p1Tbl, first, second, third, points3, points2,
    points1⟩ := exists_walk walked
  have own := recorded.mmu_eq_some_iff root (Or.inr rfl)
  have high := fun table : Word => recorded.mmu_eq_some_iff table
    (Or.inl (le_pageOf_of_bit (vaddr_bit table)))
  constructor
  · intro unmaps
    obtain ⟨found, found3, found2, found1⟩ := found_of_unmapAddr rootChosen
      points3 points2 points1 unmaps.same
    refine ⟨own.mp found, fun path table below suffix reached => ?_⟩
    rw [tablePath, List.suffix_cons_iff, List.suffix_cons_iff,
      List.suffix_cons_iff, List.suffix_nil] at suffix
    rcases suffix with rfl | rfl | rfl | rfl
    · obtain rfl := Option.some.inj (third.symm.trans reached)
      exact (high p1Tbl).mp found1
    · obtain rfl := Option.some.inj (second.symm.trans reached)
      exact (high p2Tbl).mp found2
    · obtain rfl := Option.some.inj (first.symm.trans reached)
      exact (high p3Tbl).mp found3
    · exact absurd rfl below
  · rintro ⟨rootPoints, tablesPoint⟩
    have ran := unmapAddr_of_found rootChosen points3 points2 points1
      (own.mpr rootPoints)
      ((high p3Tbl).mpr (tablesPoint _ p3Tbl (by simp)
        ⟨[p2Entry address, p3Entry address], rfl⟩ first))
      ((high p2Tbl).mpr (tablesPoint _ p2Tbl (by simp)
        ⟨[p2Entry address], rfl⟩ second))
      ((high p1Tbl).mpr (tablesPoint _ p1Tbl (by simp [tablePath])
        List.suffix_rfl third))
    rw [ran]
    obtain ⟨gone, others⟩ := clear_translateAddr recorded.tree third
    refine
      { same := by simp
        walk := ?_
        cleared := ⟨_, p1Tbl, rfl, third, rfl, gone, others⟩ }
    rw [first, second, third]
    rfl

end Machine

/-! ## Samples -/

/-- The entries that calls of `MapAddr` write, newest first. -/
def Loader.written (calls : List (Word × Word)) : List (Nat × Word) :=
  (calls.map fun call => (pageOf call.2, call.1 ||| kernelPtEntry)).reverse

theorem Loader.mapAll_failures_le
    (root : Word) (calls : List (Word × Word)) (s : Loader) :
    s.failures ≤ (mapAll root calls s).failures := by
  induction calls generalizing s with
  | nil => exact le_rfl
  | cons call calls inductionHypothesis =>
      exact (mapAddr_counts s call.1 call.2).failures_le.trans
        (inductionHypothesis _)

/-- Calls none of which fails. -/
theorem Loader.Made.mapAll
    {root : Word} {history : List (Nat × Word)} {s : Loader}
    {calls : List (Word × Word)}
    (made : Made root history s)
    (enough : (Loader.mapAll root calls s).failures = s.failures) :
    Made root (written calls ++ history) (Loader.mapAll root calls s) := by
  induction calls generalizing s history with
  | nil => exact made
  | cons call calls inductionHypothesis =>
      have counts := @mapAddr_counts root s call.1 call.2
      have later := mapAll_failures_le root calls
        (mapAddr call.1 call.2 root s).2
      rw [Loader.mapAll] at enough ⊢
      have same : (mapAddr call.1 call.2 root s).2.failures = s.failures :=
        le_antisymm (later.trans enough.le) counts.failures_le
      have first := made.mapped (Prod.ext (counts.success same) rfl)
      have rest := inductionHypothesis first (enough.trans same.symm)
      rwa [written, List.map_cons, List.reverse_cons, List.append_assoc]

/-- No frame is free. -/
def fullPmm : Pmm where
  bitmap := fun _ => BitVec.allOnes 64
  bitmapEntries := 1
  memPages := 64

/-- The kernel's address space after these calls of the loader. -/
def sampleSpace (calls : List (Word × Word)) : Machine :=
  (Loader.mapAll 0x200000#64 calls
    { sampleLoader with
      tables := RadixTree.clear tableLinks sampleLoader.tables
        0x200000#64 }).machine 0x200000#64 fullPmm

theorem sampleSpace_made
    (calls : List (Word × Word))
    (enough : (Loader.mapAll 0x200000#64 calls
      { sampleLoader with
        tables := RadixTree.clear tableLinks sampleLoader.tables
          0x200000#64 }).failures = 0) :
    Machine.Made 0x200000#64 (Loader.written calls) (sampleSpace calls) := by
  have start := Loader.Made.start sampleLoader_firmware
    ⟨by decide, by decide⟩ (by decide)
  have used : ∀ k, fullPmm.Used k := by
    intro k
    rw [Pmm.Used, fullPmm, BitVec.getLsbD_allOnes]
    exact decide_eq_true (Nat.mod_lt _ (by decide))
  have made := start.mapAll enough
  rw [List.append_nil] at made
  exact Machine.Made.loaded made (fun table _ => used (frameOf table))
    fun k free => absurd (used k) free.2

/-- The root at its own address, and the boot stack in the higher half. -/
def stackCalls : List (Word × Word) :=
  [(0x200000#64, 0x200000#64), (0x300000#64, vaddr 0x300000#64)]

/-- The tables of the stack's address, at their `VADDR` addresses as well. -/
def tableCalls : List (Word × Word) :=
  stackCalls ++
    [(0x104000#64, vaddr 0x104000#64), (0x105000#64, vaddr 0x105000#64),
      (0x106000#64, vaddr 0x106000#64)]

/-- With its tables mapped once more, the page of the stack can be
unmapped. -/
theorem unmapAddr_unmaps_iff_sample :
    Machine.Unmaps 0x200000#64 (vaddr 0x300000#64) (sampleSpace tableCalls)
      (Machine.unmapAddr (vaddr 0x300000#64) 0#64
        (sampleSpace tableCalls)) := by
  have made := sampleSpace_made tableCalls (by decide +kernel)
  have first : (sampleSpace tableCalls).nodeAt 0x200000#64
      [p4Entry (vaddr 0x300000#64)] = some 0x104000#64 := by decide +kernel
  have second : (sampleSpace tableCalls).nodeAt 0x200000#64
      [p3Entry (vaddr 0x300000#64), p4Entry (vaddr 0x300000#64)] =
        some 0x105000#64 := by decide +kernel
  have third : (sampleSpace tableCalls).nodeAt 0x200000#64
      (tablePath (vaddr 0x300000#64)) = some 0x106000#64 := by decide +kernel
  refine (Machine.unmapAddr_unmaps_iff 0x200000#64 (vaddr 0x300000#64) 0#64 _ _
    made (Or.inl rfl) (by rw [third]; rfl)).mpr ⟨by decide, ?_⟩
  intro path table below suffix reached
  rw [tablePath, List.suffix_cons_iff, List.suffix_cons_iff,
    List.suffix_cons_iff, List.suffix_nil] at suffix
  rcases suffix with rfl | rfl | rfl | rfl
  · obtain rfl := Option.some.inj (third.symm.trans reached)
    decide
  · obtain rfl := Option.some.inj (second.symm.trans reached)
    decide
  · obtain rfl := Option.some.inj (first.symm.trans reached)
    decide
  · exact absurd rfl below

/-- As the loader leaves it, the page of the stack is mapped, and `unmap_addr`
faults at the first table below the root. -/
theorem unmapAddr_faults :
    (∃ history, Machine.Made 0x200000#64 history (sampleSpace stackCalls)) ∧
      (sampleSpace stackCalls).translateAddr (vaddr 0x300000#64)
        0x200000#64 = 0x300000#64 ∧
      ((Machine.unmapAddr (vaddr 0x300000#64) 0#64
          (sampleSpace stackCalls)).1.map fun deref =>
            (deref.frame, deref.pointer, deref.found)) =
        [(0x200000#64, 0x200000#64, some 0x200000#64),
          (0x104000#64, vaddr 0x104000#64, none)] ∧
      ¬ Machine.Unmaps 0x200000#64 (vaddr 0x300000#64)
        (sampleSpace stackCalls)
        (Machine.unmapAddr (vaddr 0x300000#64) 0#64
          (sampleSpace stackCalls)) := by
  have log : ((Machine.unmapAddr (vaddr 0x300000#64) 0#64
      (sampleSpace stackCalls)).1.map fun deref =>
        (deref.frame, deref.pointer, deref.found)) =
      [(0x200000#64, 0x200000#64, some 0x200000#64),
        (0x104000#64, vaddr 0x104000#64, none)] := by decide +kernel
  refine ⟨⟨_, sampleSpace_made stackCalls (by decide +kernel)⟩, by decide +kernel, log, ?_⟩
  intro unmaps
  have faulted : (0x104000#64, vaddr 0x104000#64, none) ∈
      (Machine.unmapAddr (vaddr 0x300000#64) 0#64
        (sampleSpace stackCalls)).1.map fun deref =>
          (deref.frame, deref.pointer, deref.found) := by
    rw [log]
    simp
  obtain ⟨deref, member, eq⟩ := List.mem_map.mp faulted
  have found := unmaps.same deref member
  rw [Prod.mk.injEq, Prod.mk.injEq] at eq
  rw [eq.2.2] at found
  contradiction

end PivotOs
