import PivotOs.Paging.Defs
import PivotOs.Pmm.Frames
import Mathlib.Data.Set.Insert

/-!
# Page-table trees

The tables reached from a root form a radix tree of depth four.  It is well
formed when its tables lie in distinct frames that the bitmap marks as used.
`Grown` says how a step of `map_addr` may change it: frames that were free are
taken and some of them become tables, every old table keeps its place, each new
table is mapped at its own address, and the translation of every page that is
neither touched nor such a table stays what it was.
-/

namespace PivotOs

open Paging

namespace Paging

/-- An entry made of a physical address and flags with the present bit points
to that address. -/
theorem next_or_flags
    {table flags : Word}
    (aligned : table.toNat % 4096 = 0)
    (small : table.toNat < 2 ^ 52)
    (flagsSmall : flags.toNat < 4096)
    (present : flags.toNat % 2 = 1) :
    tableLinks.next (table ||| flags) = some table := by
  have bit : (table ||| flags) &&& 1#64 ≠ 0#64 := by
    rw [Ne, BitVec.toNat_eq, and_one_toNat, or_flags_toNat aligned flagsSmall,
      BitVec.toNat_ofNat]
    omega
  change (if _ then none else some ((table ||| flags) &&& signMask)) = _
  rw [if_neg bit, or_flags_and_signMask aligned flagsSmall,
    and_signMask_of_aligned aligned small]

/-- What an entry points to is its masked address. -/
theorem next_eq_some
    {entry table : Word}
    (points : tableLinks.next entry = some table) :
    entry &&& signMask = table := by
  change (if entry &&& 1#64 = 0#64 then none else some (entry &&& signMask)) =
    some table at points
  split at points
  · contradiction
  · exact Option.some.inj points

theorem next_eq_none_iff {entry : Word} :
    tableLinks.next entry = none ↔ entry &&& 1#64 = 0#64 := by
  change (if entry &&& 1#64 = 0#64 then none else some (entry &&& signMask)) =
    none ↔ _
  split <;> simp_all

theorem pagePath_eq_iff (left right : Word) :
    pagePath left = pagePath right ↔ pageOf left = pageOf right := by
  rw [pageOf_eq_iff]
  simp only [pagePath, tablePath, List.cons.injEq, and_true]
  tauto

theorem pagePath_alignAddr (address : Word) :
    pagePath (alignAddr address) = pagePath address :=
  (pagePath_eq_iff _ _).mpr (pageOf_alignAddr address)

theorem tablePath_alignAddr (address : Word) :
    tablePath (alignAddr address) = tablePath address :=
  (List.cons.inj (pagePath_alignAddr address)).2

/-- The processor follows the last entry of the path. -/
theorem mmu_eq_next_leafAt (tables : Tables) (root address : Word) :
    mmu tables root address =
      tableLinks.next
        (RadixTree.leafAt tableLinks tables root (pagePath address)) := by
  rw [mmu, pagePath]
  cases reached : RadixTree.nodeAt tableLinks tables root
      (tablePath address) with
  | none =>
      rw [RadixTree.leafAt_of_none reached, tableLinks.next_blank,
        RadixTree.nodeAt, reached, Option.bind_none]
  | some table =>
      rw [RadixTree.leafAt_of_some reached,
        RadixTree.nodeAt_cons_of_some reached]

end Paging

/-- A frame that `alloc_frame` may hand out. -/
structure Pmm.Fresh (m : Pmm) (frame : Word) : Prop where
  /-- It is an address of a frame. -/
  aligned : frame.toNat % 4096 = 0
  /-- It is not null. -/
  ne_zero : frame ≠ 0#64
  /-- The row counter bounds it. -/
  small : frameOf frame < 2 ^ 22
  /-- It is free. -/
  free : m.Free (frameOf frame)

namespace Pmm.Fresh

variable {m next : Pmm} {frame : Word}

theorem of_taken (taken : m.Taken frame next) : m.Fresh frame :=
  ⟨taken.aligned, taken.ne_zero, taken.small, taken.free⟩

theorem of_marked (marked : m.Marked next) (fresh : next.Fresh frame) :
    m.Fresh frame :=
  { fresh with free := marked.free fresh.free }

theorem toNat_lt (fresh : m.Fresh frame) : frame.toNat < 2 ^ 34 := by
  have small := fresh.small
  unfold frameOf pageSize at small
  omega

theorem frameOf_ne_zero (fresh : m.Fresh frame) : frameOf frame ≠ 0 := by
  have aligned := fresh.aligned
  intro null
  apply fresh.ne_zero
  apply BitVec.eq_of_toNat_eq
  unfold frameOf pageSize at null
  rw [BitVec.toNat_ofNat]
  omega

theorem pageOf_eq (fresh : m.Fresh frame) : pageOf frame = frameOf frame :=
  pageOf_eq_frameOf (lt_trans fresh.small (by decide))

/-- A used frame and a free one are on different pages. -/
theorem pageOf_ne
    {other : Word}
    (fresh : m.Fresh frame)
    (small : frameOf other < 2 ^ 36)
    (used : m.Used (frameOf other)) :
    pageOf other ≠ pageOf frame := by
  rw [fresh.pageOf_eq, pageOf_eq_frameOf small]
  intro same
  exact fresh.free.2 (same ▸ used)

end Pmm.Fresh

namespace Machine

/-- The table that a path leads to, last index first. -/
def nodeAt (s : Machine) (root : Word) (path : List (Fin 512)) : Option Word :=
  RadixTree.nodeAt tableLinks s.tables root path

/-- The last entry for an address, zero when a table is missing. -/
def leafAt (s : Machine) (root address : Word) : Word :=
  RadixTree.leafAt tableLinks s.tables root (pagePath address)

/-- A table of the tree. -/
def IsTable (s : Machine) (root table : Word) : Prop :=
  RadixTree.Member tableLinks s.tables root 4 table

/-- A well-formed tree: its tables lie in distinct frames that are in use. -/
structure Tree (s : Machine) (root : Word) : Prop where
  /-- No table is reached in two ways. -/
  distinct : RadixTree.Distinct tableLinks s.tables root 4
  /-- The bitmap marks every table. -/
  used : ∀ table, s.IsTable root table → s.pmm.Used (frameOf table)
  /-- The root is a frame. -/
  root_aligned : root.toNat % 4096 = 0
  /-- The root is not null. -/
  root_ne_zero : root ≠ 0#64

variable {s next last : Machine} {root : Word}

theorem leafAt_eq_of_pageOf_eq
    {left right : Word}
    (same : pageOf left = pageOf right) :
    s.leafAt root left = s.leafAt root right := by
  rw [leafAt, leafAt, (pagePath_eq_iff left right).mpr same]

/-- The processor reads the last entry. -/
theorem mmu_eq (s : Machine) (root address : Word) :
    mmu s.tables root address = tableLinks.next (s.leafAt root address) :=
  mmu_eq_next_leafAt s.tables root address

/-- The root is a table. -/
theorem isTable_root (s : Machine) (root : Word) : s.IsTable root root :=
  RadixTree.member_root (by decide)

/-- One step of the walk. -/
theorem nodeAt_cons (s : Machine) (index : Fin 512) (path : List (Fin 512)) :
    s.nodeAt root (index :: path) =
      (s.nodeAt root path).bind fun table =>
        tableLinks.next (s.tables table index) := rfl

/-- `translate_addr` is the masked last entry below the root it chooses. -/
theorem translateAddr_eq_of_chosen
    (address : Word)
    (chosen : (if root = 0#64 then s.pml4 else root) = root) :
    s.translateAddr address root = s.leafAt root address &&& signMask := by
  have walk : s.leafAt root address =
      (s.nodeAt root (tablePath (alignAddr address))).elim 0#64 fun table =>
        s.tables table (p1Entry (alignAddr address)) := by
    rw [leafAt, ← pagePath_alignAddr]
    rfl
  rw [walk, translateAddr, chosen]
  simp only [tablePath, nodeAt_cons]
  rw [nodeAt, RadixTree.nodeAt_nil]
  -- Each test of the code is one more present entry of the path.
  by_cases p4 : s.tables root (p4Entry (alignAddr address)) &&& 1#64 = 0#64
  · simp [tableLinks, p4]
  · rw [if_neg p4]
    simp only [Option.bind_some]
    rw [show tableLinks.next (s.tables root (p4Entry (alignAddr address))) =
      some (s.tables root (p4Entry (alignAddr address)) &&& signMask) from
        if_neg p4, Option.bind_some]
    generalize s.tables root (p4Entry (alignAddr address)) &&& signMask = p3Tbl
    by_cases p3 : s.tables p3Tbl (p3Entry (alignAddr address)) &&& 1#64 = 0#64
    · simp [tableLinks, p3]
    · rw [if_neg p3, show tableLinks.next
          (s.tables p3Tbl (p3Entry (alignAddr address))) =
        some (s.tables p3Tbl (p3Entry (alignAddr address)) &&& signMask) from
          if_neg p3, Option.bind_some]
      generalize s.tables p3Tbl (p3Entry (alignAddr address)) &&& signMask =
        p2Tbl
      by_cases p2 :
          s.tables p2Tbl (p2Entry (alignAddr address)) &&& 1#64 = 0#64
      · simp [tableLinks, p2]
      · rw [if_neg p2, show tableLinks.next
            (s.tables p2Tbl (p2Entry (alignAddr address))) =
          some (s.tables p2Tbl (p2Entry (alignAddr address)) &&& signMask)
            from if_neg p2]
        rfl

theorem translateAddr_eq
    (address : Word)
    (notNull : root ≠ 0#64) :
    s.translateAddr address root = s.leafAt root address &&& signMask :=
  translateAddr_eq_of_chosen address (if_neg notNull)

/-- Tables below the root are masked addresses. -/
theorem Tree.isTable_aligned
    (tree : s.Tree root)
    {table : Word}
    (isTable : s.IsTable root table) :
    table.toNat % 4096 = 0 := by
  obtain ⟨path, -, reached⟩ := isTable
  cases path with
  | nil =>
      obtain rfl := Option.some.inj reached
      exact tree.root_aligned
  | cons index path =>
      obtain ⟨parent, -, points⟩ := Option.bind_eq_some_iff.mp reached
      rw [← next_eq_some points, and_signMask_toNat]
      omega

end Machine
end PivotOs
