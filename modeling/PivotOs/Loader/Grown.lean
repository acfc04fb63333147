import PivotOs.Loader.Defs
import PivotOs.Paging.Tree
import Mathlib.Data.List.ReduceOption

/-!
# How the loader's tables grow

`Grew` collects what a call of `MapAddr` may do to the tables, whether it ends
well or stops with an error.  It composes, so that a call, a loop of calls and
the whole of `LoadKernel` are described by the same relation.  The relation is
proved here for the elementary steps: hanging a page of the firmware into the
tree, and writing a last entry.
-/

namespace PivotOs

open Paging

namespace Loader

/-- The table that a path leads to, last index first. -/
def nodeAt (s : Loader) (pml4 : Word) (path : List (Fin 512)) : Option Word :=
  RadixTree.nodeAt tableLinks s.tables pml4 path

/-- The last entry for an address, zero when a table is missing. -/
def leafAt (s : Loader) (pml4 address : Word) : Word :=
  RadixTree.leafAt tableLinks s.tables pml4 (pagePath address)

/-- A table of the tree. -/
def IsTable (s : Loader) (pml4 table : Word) : Prop :=
  RadixTree.Member tableLinks s.tables pml4 4 table

/-- A page of the lower half. -/
structure LowPage (address : Word) : Prop where
  /-- It starts a page. -/
  aligned : address.toNat % 4096 = 0
  /-- It is in the lower half. -/
  low : address.toNat < 2 ^ 47

/-- The tables form a tree, and the firmware will hand out pages that are not
in it, none of them twice. -/
structure Sound (pml4 : Word) (s : Loader) : Prop where
  /-- No table is reached in two ways. -/
  distinct : RadixTree.Distinct tableLinks s.tables pml4 4
  /-- The firmware hands out pages. -/
  paged : ∀ table, some table ∈ s.pages → LowPage table
  /-- None of them is a table. -/
  unseen : ∀ table, some table ∈ s.pages →
    ¬ RadixTree.Member tableLinks s.tables pml4 4 table
  /-- None of them comes twice. -/
  once : s.pages.reduceOption.Nodup

/-- From `s` to `next` the pages in `tables` became tables, and only the pages
in `touched` were mapped besides. -/
structure Grew (pml4 : Word) (tables : List Word) (touched : Set Nat)
    (s next : Loader) : Prop where
  /-- The tree is well formed. -/
  sound : next.Sound pml4
  /-- No answer of the firmware comes back. -/
  fewer : next.pages.Sublist s.pages
  /-- New tables come from the firmware. -/
  listed : ∀ table ∈ tables, some table ∈ s.pages
  /-- Old tables keep their places. -/
  keeps : ∀ path table, path.length < 4 →
    s.nodeAt pml4 path = some table → next.nodeAt pml4 path = some table
  /-- The tables are the old ones and the new ones. -/
  isTable_iff : ∀ table,
    next.IsTable pml4 table ↔ s.IsTable pml4 table ∨ table ∈ tables
  /-- New tables are mapped at their own addresses, if at all. -/
  leaf_table : ∀ table ∈ tables, pageOf table ∉ touched →
    next.leafAt pml4 table = table ||| kernelPtEntry ∨
      next.leafAt pml4 table = s.leafAt pml4 table
  /-- Other pages are left alone. -/
  leaf_other : ∀ address, pageOf address ∉ touched →
    (∀ table ∈ tables, pageOf address ≠ pageOf table) →
      next.leafAt pml4 address = s.leafAt pml4 address

variable {pml4 : Word} {s next last : Loader} {tables : List Word}
variable {touched : Set Nat}

theorem leafAt_eq_of_pageOf_eq
    {left right : Word}
    (same : pageOf left = pageOf right) :
    s.leafAt pml4 left = s.leafAt pml4 right := by
  rw [leafAt, leafAt, (pagePath_eq_iff left right).mpr same]

theorem mmu_eq (s : Loader) (pml4 address : Word) :
    mmu s.tables pml4 address = tableLinks.next (s.leafAt pml4 address) :=
  mmu_eq_next_leafAt s.tables pml4 address

namespace LowPage

variable {page other address : Word}

/-- Two addresses of the lower half in one page are aligned alike. -/
theorem alignAddr_eq
    (lowPage : LowPage page)
    (low : address.toNat < 2 ^ 47)
    (same : pageOf address = pageOf page) :
    alignAddr address = page := by
  have aligned := lowPage.aligned
  have below := lowPage.low
  apply BitVec.eq_of_toNat_eq
  rw [alignAddr_toNat]
  simp only [pageOf, pageSize] at same
  omega

theorem eq_of_pageOf_eq
    (lowPage : LowPage page)
    (otherLow : LowPage other)
    (same : pageOf other = pageOf page) :
    other = page := by
  rw [← lowPage.alignAddr_eq otherLow.low same,
    alignAddr_of_aligned otherLow.aligned]

theorem pageOf_lt (lowPage : LowPage page) : pageOf page < 2 ^ 35 := by
  have low := lowPage.low
  unfold pageOf pageSize
  omega

/-- The entry of a page points to it. -/
theorem next_eq (lowPage : LowPage page) :
    tableLinks.next (page ||| kernelPtEntry) = some page :=
  next_or_flags lowPage.aligned (lowPage.low.trans (by decide)) (by decide)
    (by decide)

end LowPage

namespace Grew

@[refl] theorem refl (sound : s.Sound pml4) : Grew pml4 [] touched s s where
  sound := sound
  fewer := List.Sublist.refl _
  listed := by simp
  keeps := fun _ _ _ => id
  isTable_iff := by simp
  leaf_table := by simp
  leaf_other := fun _ _ _ => rfl

/-- The answers of the firmware are not part of the tables. -/
theorem of_pages
    {pages : List (Option Word)} {failures : Nat}
    (sound : s.Sound pml4)
    (fewer : pages.Sublist s.pages) :
    Grew pml4 [] touched s { s with pages := pages, failures := failures } :=
  { refl sound with
    sound :=
      { distinct := sound.distinct
        paged := fun table member => sound.paged table (fewer.subset member)
        unseen := fun table member => sound.unseen table (fewer.subset member)
        once := sound.once.sublist (fewer.filterMap id) }
    fewer := fewer }

/-- Touching more pages promises less. -/
theorem mono
    {wider : Set Nat}
    (grew : Grew pml4 tables touched s next)
    (subset : touched ⊆ wider) :
    Grew pml4 tables wider s next :=
  { grew with
    leaf_table := fun table member outside =>
      grew.leaf_table table member fun inside => outside (subset inside)
    leaf_other := fun address outside =>
      grew.leaf_other address fun inside => outside (subset inside) }

/-- A table is none of the pages that are handed out later. -/
theorem not_listed
    (grew : Grew pml4 tables touched s next)
    {table : Word}
    (member : table ∈ tables) :
    some table ∉ next.pages := by
  intro listed
  exact grew.sound.unseen table listed
    ((grew.isTable_iff table).mpr (Or.inr member))

theorem trans
    {later : List Word}
    (sound : s.Sound pml4)
    (first : Grew pml4 tables touched s next)
    (second : Grew pml4 later touched next last) :
    Grew pml4 (later ++ tables) touched s last where
  sound := second.sound
  fewer := second.fewer.trans first.fewer
  listed := by
    intro table member
    rcases List.mem_append.mp member with new | old
    · exact first.fewer.subset (second.listed table new)
    · exact first.listed table old
  keeps := fun path table short old =>
    second.keeps path table short (first.keeps path table short old)
  isTable_iff := by
    intro table
    rw [second.isTable_iff, first.isTable_iff, List.mem_append]
    tauto
  leaf_table := by
    -- A page handed out later is another one than a table made earlier.
    have apart : ∀ old ∈ tables, ∀ new ∈ later, pageOf old ≠ pageOf new := by
      intro old oldMember new newMember same
      have newPage := first.sound.paged new (second.listed new newMember)
      have oldPage := sound.paged old (first.listed old oldMember)
      rw [newPage.eq_of_pageOf_eq oldPage same] at oldMember
      exact first.not_listed oldMember (second.listed new newMember)
    intro table member outside
    rcases List.mem_append.mp member with new | old
    · rw [← first.leaf_other table outside fun other isOld same =>
        apart other isOld table new same.symm]
      exact second.leaf_table table new outside
    · rw [second.leaf_other table outside (apart table old)]
      exact first.leaf_table table old outside
  leaf_other := by
    intro address outside different
    rw [second.leaf_other address outside fun table member =>
      different table (List.mem_append_left _ member)]
    exact first.leaf_other address outside fun table member =>
      different table (List.mem_append_right _ member)

/-- A new table that has its own mapping need not count as touched. -/
theorem settle
    {table : Word}
    (sound : s.Sound pml4)
    (grew : Grew pml4 tables (insert (pageOf table) touched) s next)
    (member : table ∈ tables)
    (mapped : next.leafAt pml4 table = table ||| kernelPtEntry) :
    Grew pml4 tables touched s next :=
  { grew with
    leaf_table := by
      intro other isNew outside
      have otherPage := sound.paged other (grew.listed other isNew)
      have tablePage := sound.paged table (grew.listed table member)
      by_cases same : pageOf other = pageOf table
      · rw [tablePage.eq_of_pageOf_eq otherPage same]
        exact Or.inl mapped
      · exact grew.leaf_table other isNew (by simp [same, outside])
    leaf_other := by
      intro address outside different
      apply grew.leaf_other address _ different
      simp [different table member, outside] }

/-- Pages of the higher half are touched only where they are asked for. -/
theorem leaf_high
    (sound : s.Sound pml4)
    (grew : Grew pml4 tables touched s next)
    {address : Word}
    (outside : pageOf address ∉ touched)
    (high : 2 ^ 35 ≤ pageOf address) :
    next.leafAt pml4 address = s.leafAt pml4 address := by
  refine grew.leaf_other address outside fun table member => ?_
  have low := (sound.paged table (grew.listed table member)).pageOf_lt
  omega

end Grew

/-! ## Elementary steps -/

/-- A page of the firmware, cleared and hung into the tree. -/
theorem hang_grew
    {table new : Word} {index : Fin 512} {path : List (Fin 512)}
    {pages : List (Option Word)}
    (touched : Set Nat)
    (sound : s.Sound pml4)
    (pages_eq : s.pages = some new :: pages)
    (found : s.nodeAt pml4 path = some table)
    (inner : path.length + 1 < 4)
    (missing : s.nodeAt pml4 (index :: path) = none)
    (hung : next =
      { s with
        tables := RadixTree.write (RadixTree.clear tableLinks s.tables new)
          table index (new ||| kernelPtEntry)
        pages := pages }) :
    Grew pml4 [new] touched s next ∧
      next.nodeAt pml4 (index :: path) = some new := by
  have listed : some new ∈ s.pages := pages_eq ▸ List.mem_cons_self
  have page := sound.paged new listed
  have unseen := sound.unseen new listed
  have points := page.next_eq
  have different : table ≠ new := by
    rintro rfl
    exact unseen ⟨path, by omega, found⟩
  have tables_eq : next.tables = RadixTree.link tableLinks s.tables table index
      (new ||| kernelPtEntry) new := by
    rw [hung, ← RadixTree.write_clear_eq_link different]
  have next_pages : next.pages = pages := by rw [hung]
  have once : new ∉ pages.reduceOption ∧ pages.reduceOption.Nodup := by
    have once := sound.once
    rwa [pages_eq, List.reduceOption_cons_of_some, List.nodup_cons] at once
  have hangs : RadixTree.Hangs tableLinks s.tables next.tables pml4 4
      (index :: path) new := by
    rw [tables_eq]
    exact RadixTree.link_hangs sound.distinct inner found missing points unseen
  have leaves : ∀ address, next.leafAt pml4 address =
      s.leafAt pml4 address := fun _ => hangs.leaf_eq _ _ rfl
  refine ⟨?_, hangs.found⟩
  refine
    { sound :=
        { distinct := hangs.distinct
          paged := ?_
          unseen := ?_
          once := next_pages ▸ once.2 }
      fewer := ?_
      listed := by simpa using listed
      keeps := hangs.keeps
      isTable_iff := ?_
      leaf_table := fun other _ _ => Or.inr (leaves other)
      leaf_other := fun address _ _ => leaves address }
  · intro other member
    rw [next_pages] at member
    exact sound.paged other (pages_eq ▸ List.mem_cons_of_mem _ member)
  · intro other member seen
    rw [next_pages] at member
    rcases (hangs.member_iff other).mp seen with old | rfl
    · exact sound.unseen other (pages_eq ▸ List.mem_cons_of_mem _ member) old
    · exact once.1 (List.reduceOption_mem_iff.mpr member)
  · rw [next_pages, pages_eq]
    exact List.sublist_cons_self _ _
  · intro other
    rw [List.mem_singleton]
    exact hangs.member_iff other

/-- Write the last entry of an address. -/
theorem store_grew
    {table : Word} (address word : Word)
    (sound : s.Sound pml4)
    (found : s.nodeAt pml4 (tablePath address) = some table) :
    Grew pml4 [] {pageOf address} s
        (s.store table (p1Entry address) word) ∧
      (s.store table (p1Entry address) word).leafAt pml4 address = word := by
  have deepest : (tablePath address).length + 1 = 4 := rfl
  have members : ∀ other,
      (s.store table (p1Entry address) word).IsTable pml4 other ↔
        s.IsTable pml4 other := fun _ =>
    RadixTree.member_write_iff sound.distinct deepest found
  have leaves : ∀ other,
      (s.store table (p1Entry address) word).leafAt pml4 other =
        if pageOf other = pageOf address then word
        else s.leafAt pml4 other := by
    intro other
    have pages : tablePath other = tablePath address ∧
          p1Entry other = p1Entry address ↔ pageOf other = pageOf address := by
      rw [← pagePath_eq_iff, pagePath, pagePath, List.cons.injEq, and_comm]
    have written : (s.store table (p1Entry address) word).leafAt pml4 other =
        if tablePath other = tablePath address ∧
            p1Entry other = p1Entry address then word
        else s.leafAt pml4 other :=
      RadixTree.leafAt_write sound.distinct deepest found rfl
    rw [written]
    simp only [pages]
  refine ⟨?_, by rw [leaves, if_pos rfl]⟩
  refine
    { sound :=
        { distinct := sound.distinct.write deepest found
          paged := sound.paged
          unseen := fun other member seen =>
            sound.unseen other member ((members other).mp seen)
          once := sound.once }
      fewer := List.Sublist.refl _
      listed := by simp
      keeps := ?_
      isTable_iff := by simpa using members
      leaf_table := by simp
      leaf_other := ?_ }
  · intro way other short old
    rw [← old]
    exact RadixTree.nodeAt_write sound.distinct deepest found way short
  · intro other outside _
    rw [leaves, if_neg (by simpa using outside)]

end Loader
end PivotOs
