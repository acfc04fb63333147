import PivotOs.Paging.MapAddr

/-!
# Two page tables

`map_addr` writes to tables of the page table it is given and to new frames.  A
second page table that shares no table with the first keeps all its entries, so
it translates every address as before.
-/

namespace PivotOs

open Paging

namespace Machine

variable {s next last : Machine} {root : Word}

/-- Only tables of a page table have changed. -/
def Confined (root : Word) (s next : Machine) : Prop :=
  ∀ table, ¬ next.IsTable root table → next.tables table = s.tables table

namespace Confined

theorem trans
    {taken tables : List Word} {touched : Set Nat}
    (first : Confined root s next)
    (second : Confined root next last)
    (grown : Grown root taken tables touched next last) :
    Confined root s last := by
  intro table outside
  rw [second table outside]
  exact first table fun inside =>
    outside ((grown.isTable_iff table).mpr (.inl inside))

/-- Writing to a table of the tree. -/
theorem store
    {table : Word} {index : Fin 512} {word : Word}
    (isTable : (s.store table index word).IsTable root table) :
    Confined root s (s.store table index word) := by
  intro other outside
  have different : other ≠ table := by
    rintro rfl
    exact outside isTable
  funext j
  exact RadixTree.write_other fun same => different same.1

end Confined

/-! ## The levels of the walk -/

section Growing

variable {identity : Word → Machine → Option Machine}
variable
  (advances : ∀ table s next, identity table s = some next → Advances s next)
  (maps : ∀ table s next, s.Tree root → s.pmm.Marks → table ≠ 0#64 →
    identity table s = some next → next.nulls = s.nulls →
      Maps root table table kernelPtEntry s next)
  (confined : ∀ table s next, s.Tree root → s.pmm.Marks → table ≠ 0#64 →
    identity table s = some next → next.nulls = s.nulls →
      Confined root s next)

include advances maps confined

theorem create_confined
    {table address : Word} {index : Fin 512} {path : List (Fin 512)}
    (tree : s.Tree root)
    (marks : s.pmm.Marks)
    (found : s.nodeAt root path = some table)
    (inner : path.length + 1 < 4)
    (missing : s.nodeAt root (index :: path) = none)
    (towards : index :: path <:+ tablePath address)
    (created : create identity table index s = some next)
    (enough : next.nulls = s.nulls) :
    Confined root s next := by
  obtain ⟨new, allocated, taken, tables_eq, hung, placed, rest, nulls⟩ :=
    create_hangs advances tree marks found inner missing towards created enough
  obtain ⟨tables, grown, -⟩ := maps new _ next hung.tree (hung.marks marks)
    taken.ne_zero rest nulls
  have second := confined new _ next hung.tree (hung.marks marks)
    taken.ne_zero rest nulls
  refine Confined.trans ?_ second grown
  -- Hanging the new table writes to its parent and clears it.
  intro other outside
  have notNew : other ≠ new := by
    rintro rfl
    exact outside ⟨index :: path, inner, placed⟩
  have notParent : other ≠ table := by
    rintro rfl
    exact outside ((hung.isTable_iff other).mpr
      (.inl ⟨path, by omega, found⟩))
  funext j
  rw [hang, cleanTable, clearBelow_full]
  simp only [RadixTree.clear, if_neg notNew, store]
  rw [RadixTree.write_other fun written => notParent written.1]
  exact congrFun (congrFun tables_eq other) j

theorem descend_confined
    {table child address : Word} {index : Fin 512} {path : List (Fin 512)}
    (tree : s.Tree root)
    (marks : s.pmm.Marks)
    (found : s.nodeAt root path = some table)
    (inner : path.length + 1 < 4)
    (towards : index :: path <:+ tablePath address)
    (descended : descend identity table index s = some (child, next))
    (enough : next.nulls = s.nulls) :
    Confined root s next := by
  obtain ⟨middle, made, same⟩ := Option.map_eq_some_iff.mp descended
  obtain ⟨rfl, rfl⟩ := Prod.mk.inj same
  rw [ensure] at made
  split at made
  · rename_i absent
    have missing : s.nodeAt root (index :: path) = none := by
      rw [nodeAt_cons, found, Option.bind_some, next_eq_none_iff.mpr absent]
    have read := touch_grown tree table {pageOf address}
    have made : Confined root (s.touch table) middle :=
      create_confined advances maps confined read.tree marks found inner missing
        towards made enough
    exact made
  · obtain rfl := Option.some.inj made
    exact fun _ _ => rfl

theorem mapAddrWith_confined
    {physical virtual flags : Word}
    (tree : s.Tree root)
    (marks : s.pmm.Marks)
    (mapped : mapAddrWith identity physical virtual flags root s = some next)
    (enough : next.nulls = s.nulls) :
    Confined root s next := by
  rcases mapAddrWith_cases mapped with ⟨-, rfl⟩ | ⟨-, walk⟩
  · exact fun _ _ => rfl
  · obtain ⟨s1, s2, s3, p3Tbl, p2Tbl, p1Tbl, walked, written⟩ := walk
    have nulls1 := (Advances.closed.descend advances walked.first).nulls_le
    have nulls2 := (Advances.closed.descend advances walked.second).nulls_le
    have nulls3 := (Advances.closed.descend advances walked.third).nulls_le
    have nulls4 : s3.nulls = next.nulls := by rw [written]; rfl
    have path := tablePath_alignAddr virtual
    have found0 : s.nodeAt root [] = some root := rfl
    have towards1 : [p4Entry (alignAddr virtual)] <:+ tablePath virtual :=
      path ▸ ⟨[p2Entry _, p3Entry _], rfl⟩
    have towards2 : [p3Entry (alignAddr virtual), p4Entry (alignAddr virtual)]
        <:+ tablePath virtual :=
      path ▸ ⟨[p2Entry _], rfl⟩
    have towards3 : tablePath (alignAddr virtual) <:+ tablePath virtual :=
      path ▸ List.suffix_rfl
    obtain ⟨tables1, grown1, found1⟩ := descend_grown advances maps tree
      marks found0 (by simp) towards1 walked.first (by omega)
    obtain ⟨tables2, grown2, found2⟩ := descend_grown advances maps
      grown1.tree (grown1.marks marks) found1 (by simp) towards2 walked.second
      (by omega)
    obtain ⟨tables3, grown3, found3⟩ := descend_grown advances maps
      grown2.tree (grown2.marks (grown1.marks marks)) found2 (by simp)
      towards3 walked.third (by omega)
    have confined1 := descend_confined advances maps confined tree marks found0
      (by simp) towards1 walked.first (by omega)
    have confined2 := descend_confined advances maps confined grown1.tree
      (grown1.marks marks) found1 (by simp) towards2 walked.second (by omega)
    have confined3 := descend_confined advances maps confined grown2.tree
      (grown2.marks (grown1.marks marks)) found2 (by simp) towards3
      walked.third (by omega)
    obtain ⟨grown4, -⟩ := store_grown (alignAddr virtual)
      (alignAddr physical ||| flags) grown3.tree found3
    have isTable : (s3.store p1Tbl (p1Entry (alignAddr virtual))
        (alignAddr physical ||| flags)).IsTable root p1Tbl :=
      (grown4.isTable_iff p1Tbl).mpr
        (.inl ⟨tablePath (alignAddr virtual), by simp [tablePath], found3⟩)
    rw [written]
    exact ((confined1.trans confined2 grown2).trans confined3 grown3).trans
      (Confined.store isTable) grown4

end Growing

theorem mapAddrFuel_confined
    {fuel : Nat} {physical virtual flags : Word}
    (tree : s.Tree root)
    (marks : s.pmm.Marks)
    (mapped : mapAddrFuel fuel physical virtual flags root s = some next)
    (enough : next.nulls = s.nulls) :
    Confined root s next := by
  induction fuel generalizing physical virtual flags s next with
  | zero => cases mapped
  | succ fuel inductionHypothesis =>
      refine mapAddrWith_confined (fun _ _ _ => Advances.closed.mapAddrFuel) ?_
        ?_ tree marks mapped enough
      · intro table t tNext tTree tMarks table_ne
        exact mapAddrFuel_maps tTree tMarks table_ne table_ne
      · intro table t tNext tTree tMarks _
        exact inductionHypothesis tTree tMarks

theorem mapAddr_confined
    {physical virtual flags : Word}
    (tree : s.Tree root)
    (marks : s.pmm.Marks)
    (mapped : mapAddr physical virtual flags root s = some next)
    (enough : next.nulls = s.nulls) :
    Confined root s next :=
  mapAddrFuel_confined tree marks mapped enough

/-! ## A second page table -/

/-- Two page tables that share no table. -/
structure Apart (src dest : Word) (s : Machine) : Prop where
  source : s.Tree src
  target : s.Tree dest
  marks : s.pmm.Marks
  separate : ∀ table, s.IsTable src table → ¬ s.IsTable dest table

/-- The first page table has the same tables with the same entries, and still
shares none with the second. -/
structure Spares (src dest : Word) (s next : Machine) : Prop where
  apart : Apart src dest next
  same : ∀ table, s.IsTable src table → next.tables table = s.tables table

namespace Spares

variable {src dest : Word}

theorem leafAt_eq
    (spares : Spares src dest s next)
    (address : Word) :
    next.leafAt src address = s.leafAt src address :=
  RadixTree.leafAt_of_agree spares.same (Nat.lt_succ_self 3)

theorem translateAddr_eq
    (spares : Spares src dest s next)
    (address : Word) :
    next.translateAddr address src = s.translateAddr address src := by
  have notNull := spares.apart.source.root_ne_zero
  rw [Machine.translateAddr_eq _ notNull, Machine.translateAddr_eq _ notNull,
    spares.leafAt_eq]

theorem isTable_iff
    (spares : Spares src dest s next)
    (table : Word) :
    next.IsTable src table ↔ s.IsTable src table :=
  RadixTree.member_of_agree spares.same

@[refl] theorem refl (apart : Apart src dest s) : Spares src dest s s :=
  ⟨apart, fun _ _ => rfl⟩

theorem trans
    (first : Spares src dest s next)
    (second : Spares src dest next last) :
    Spares src dest s last where
  apart := second.apart
  same := fun table isTable =>
    (second.same table ((first.isTable_iff table).mpr isTable)).trans
      (first.same table isTable)

/-- Stores outside the first page table spare it. -/
theorem of_same
    (source : s.Tree src)
    (marked : s.pmm.Marked next.pmm)
    (target : next.Tree dest)
    (marks : next.pmm.Marks)
    (same : ∀ table, s.IsTable src table →
      next.tables table = s.tables table)
    (separate : ∀ table, s.IsTable src table → ¬ next.IsTable dest table) :
    Spares src dest s next := by
  have isTable_iff : ∀ table, next.IsTable src table ↔ s.IsTable src table :=
    fun table => RadixTree.member_of_agree same
  refine ⟨⟨?_, target, marks, ?_⟩, same⟩
  · exact {
      distinct := RadixTree.Distinct.of_agree same source.distinct
      used := fun table isTable => marked.used _
        (source.used table ((isTable_iff table).mp isTable))
      root_aligned := source.root_aligned
      root_ne_zero := source.root_ne_zero }
  · exact fun table isTable => separate table ((isTable_iff table).mp isTable)

/-- New tables of the second page table are none of the first. -/
theorem of_grown
    {taken tables : List Word} {touched : Set Nat}
    (apart : Apart src dest s)
    (grown : Grown dest taken tables touched s next)
    (confined : Confined dest s next) :
    Spares src dest s next := by
  have separate : ∀ table, s.IsTable src table →
      ¬ next.IsTable dest table := by
    intro table isTable inTarget
    rcases (grown.isTable_iff table).mp inTarget with old | new
    · exact apart.separate table isTable old
    · have fresh := grown.fresh table (grown.tables_taken table new)
      exact fresh.free.2 (apart.source.used table isTable)
  exact of_same apart.source grown.marked grown.tree (grown.marks apart.marks)
    (fun table isTable => confined table (separate table isTable)) separate

/-- A page table in a new frame shares no table with one that exists. -/
theorem of_allocFrame
    {allocated : Machine}
    (source : s.Tree src)
    (marks : s.pmm.Marks)
    (answered : s.allocFrame = some (dest, allocated))
    (enough : allocated.nulls = s.nulls) :
    Spares src dest s (allocated.cleanTable dest) := by
  obtain ⟨taken, -, same⟩ := allocFrame_taken answered le_rfl enough
  have different : ∀ table, s.IsTable src table → table ≠ dest := by
    rintro table isTable rfl
    exact taken.free.2 (source.used table isTable)
  obtain ⟨cleared, target⟩ := cleanTable_tree marks taken
  have tables_eq : allocated.tables = s.tables := by rw [same]
  refine of_same source taken.marked target (taken.marked.marks marks) ?_ ?_
  · intro table isTable
    funext index
    simp only [cleanTable, clearBelow, different table isTable, false_and,
      if_false, tables_eq]
  · intro table isTable inTarget
    exact different table isTable (RadixTree.member_of_cleared cleared inTarget)

end Spares

/-- `map_addr` on one page table spares the other. -/
theorem mapAddr_spares
    {src dest physical virtual flags : Word}
    (apart : Apart src dest s)
    (physical_ne : physical ≠ 0#64)
    (virtual_ne : virtual ≠ 0#64)
    (mapped : mapAddr physical virtual flags dest s = some next)
    (enough : next.nulls = s.nulls) :
    Spares src dest s next := by
  obtain ⟨tables, grown, -⟩ := mapAddr_maps apart.target apart.marks
    physical_ne virtual_ne mapped enough
  exact Spares.of_grown apart grown
    (mapAddr_confined apart.target apart.marks mapped enough)

end Machine
end PivotOs
