import PivotOs.Paging.Tree

/-!
# How mapping changes a tree

`Grown` collects what a step of `map_addr` may do to a tree, from its first
word to its last.  It composes, so a call, a loop of calls and a whole
initialisation are described by the same relation.  The relation is proved
here for the elementary steps: taking a frame, hanging a cleared table into the
tree and writing a last entry.
-/

namespace PivotOs

open Paging

namespace Machine

/-- What every step does, also one that runs out of frames. -/
structure Advances (s next : Machine) : Prop where
  /-- No bit of the bitmap was cleared. -/
  marked : s.pmm.Marked next.pmm
  /-- Failures stay in the log. -/
  nulls_le : s.nulls ≤ next.nulls
  /-- The kernel's own root is the same. -/
  pml4_eq : next.pml4 = s.pml4
  /-- The active root is the same. -/
  cr3_eq : next.cr3 = s.cr3
  /-- Accesses stay in the log. -/
  logged : s.accesses <:+ next.accesses

namespace Advances

variable {s next last : Machine}

@[refl] theorem refl (s : Machine) : Advances s s :=
  ⟨Pmm.Marked.refl _, le_rfl, rfl, rfl, List.suffix_rfl⟩

theorem trans (first : Advances s next) (second : Advances next last) :
    Advances s last where
  marked := first.marked.trans second.marked
  nulls_le := first.nulls_le.trans second.nulls_le
  pml4_eq := second.pml4_eq.trans first.pml4_eq
  cr3_eq := second.cr3_eq.trans first.cr3_eq
  logged := first.logged.trans second.logged

theorem touch (s : Machine) (table : Word) : Advances s (s.touch table) :=
  ⟨Pmm.Marked.refl _, le_rfl, rfl, rfl, List.suffix_cons _ _⟩

theorem store (s : Machine) (table : Word) (index : Fin 512) (word : Word) :
    Advances s (s.store table index word) :=
  ⟨Pmm.Marked.refl _, le_rfl, rfl, rfl, List.suffix_cons _ _⟩

theorem cleanTable (s : Machine) (table : Word) :
    Advances s (s.cleanTable table) :=
  ⟨Pmm.Marked.refl _, le_rfl, rfl, rfl, List.suffix_append _ _⟩

theorem hang (s : Machine) (table : Word) (index : Fin 512) (new : Word) :
    Advances s (s.hang table index new) :=
  (store s table index _).trans (cleanTable _ new)

end Advances

/-- From `s` to `next` the frames `taken` were handed out, those in `tables`
became tables, and only the pages in `touched` were mapped besides. -/
structure Grown (root : Word) (taken tables : List Word) (touched : Set Nat)
    (s next : Machine) : Prop extends Advances s next where
  /-- The tree is well formed. -/
  tree : next.Tree root
  /-- The log has the frames taken. -/
  allocs_eq : next.allocs = taken ++ s.allocs
  /-- Each of them was free. -/
  fresh : ∀ frame ∈ taken, s.pmm.Fresh frame
  /-- Each of them is now marked. -/
  taken_used : ∀ frame ∈ taken, next.pmm.Used (frameOf frame)
  /-- New tables are among them. -/
  tables_taken : ∀ table ∈ tables, table ∈ taken
  /-- Old tables keep their places. -/
  keeps : ∀ path table, path.length < 4 →
    s.nodeAt root path = some table → next.nodeAt root path = some table
  /-- A new place was made for a page that was mapped or for a new table. -/
  reached : ∀ path table, path.length < 4 →
    next.nodeAt root path = some table →
      s.nodeAt root path = some table ∨
        ∃ address, (pageOf address ∈ touched ∨ address ∈ tables) ∧
          path <:+ tablePath address
  /-- The tables are the old ones and the new ones. -/
  isTable_iff : ∀ table,
    next.IsTable root table ↔ s.IsTable root table ∨ table ∈ tables
  /-- New tables are mapped at their own addresses. -/
  leaf_table : ∀ table ∈ tables, pageOf table ∉ touched →
    next.leafAt root table = table ||| kernelPtEntry
  /-- Other pages are left alone. -/
  leaf_other : ∀ address, pageOf address ∉ touched →
    (∀ table ∈ tables, pageOf address ≠ pageOf table) →
      next.leafAt root address = s.leafAt root address

namespace Grown

variable {root : Word} {s next last : Machine} {taken tables : List Word}
variable {touched : Set Nat}

@[refl] theorem refl (tree : s.Tree root) : Grown root [] [] touched s s where
  toAdvances := Advances.refl s
  tree := tree
  allocs_eq := rfl
  fresh := by simp
  taken_used := by simp
  tables_taken := by simp
  keeps := fun _ _ _ => id
  reached := fun _ _ _ => Or.inl
  isTable_iff := by simp
  leaf_table := by simp
  leaf_other := fun _ _ _ => rfl

/-- Touching more pages promises less. -/
theorem mono
    {wider : Set Nat}
    (grown : Grown root taken tables touched s next)
    (subset : touched ⊆ wider) :
    Grown root taken tables wider s next :=
  { grown with
    reached := by
      intro path table short found
      rcases grown.reached path table short found with old | new
      · exact Or.inl old
      · obtain ⟨address, cause, suffix⟩ := new
        exact Or.inr ⟨address, cause.imp_left fun in_touched =>
          subset in_touched, suffix⟩
    leaf_table := fun table member outside =>
      grown.leaf_table table member fun inside => outside (subset inside)
    leaf_other := fun address outside =>
      grown.leaf_other address fun inside => outside (subset inside) }

theorem trans
    {laterTaken laterTables : List Word}
    (first : Grown root taken tables touched s next)
    (second : Grown root laterTaken laterTables touched next last) :
    Grown root (laterTaken ++ taken) (laterTables ++ tables) touched s
      last where
  toAdvances := first.toAdvances.trans second.toAdvances
  tree := second.tree
  allocs_eq := by
    rw [second.allocs_eq, first.allocs_eq, List.append_assoc]
  fresh := by
    intro frame member
    rcases List.mem_append.mp member with later | earlier
    · exact (second.fresh frame later).of_marked first.marked
    · exact first.fresh frame earlier
  taken_used := by
    intro frame member
    rcases List.mem_append.mp member with later | earlier
    · exact second.taken_used frame later
    · exact second.marked.used _ (first.taken_used frame earlier)
  tables_taken := by
    intro table member
    rcases List.mem_append.mp member with later | earlier
    · exact List.mem_append_left _ (second.tables_taken table later)
    · exact List.mem_append_right _ (first.tables_taken table earlier)
  keeps := fun path table short old =>
    second.keeps path table short (first.keeps path table short old)
  reached := by
    intro path table short found
    rcases second.reached path table short found with middle | new
    · rcases first.reached path table short middle with old | new
      · exact Or.inl old
      · obtain ⟨address, cause, suffix⟩ := new
        exact Or.inr ⟨address,
          cause.imp_right (List.mem_append_right _), suffix⟩
    · obtain ⟨address, cause, suffix⟩ := new
      exact Or.inr ⟨address, cause.imp_right (List.mem_append_left _), suffix⟩
  isTable_iff := by
    intro table
    rw [second.isTable_iff, first.isTable_iff, List.mem_append]
    tauto
  leaf_table := by
    intro table member outside
    rcases List.mem_append.mp member with later | earlier
    · exact second.leaf_table table later outside
    · rw [second.leaf_other table outside, first.leaf_table table earlier
        outside]
      -- A frame taken later was free when this one was in use already.
      intro new isNew
      have old := first.fresh table (first.tables_taken table earlier)
      apply (second.fresh new (second.tables_taken new isNew)).pageOf_ne
      · exact lt_trans old.small (by decide)
      · exact first.taken_used table (first.tables_taken table earlier)
  leaf_other := by
    intro address outside different
    rw [second.leaf_other address outside fun table member =>
      different table (List.mem_append_left _ member)]
    exact first.leaf_other address outside fun table member =>
      different table (List.mem_append_right _ member)

theorem marks
    (grown : Grown root taken tables touched s next)
    (marks : s.pmm.Marks) :
    next.pmm.Marks :=
  grown.marked.marks marks

/-- The logs agree on how often `alloc_frame` failed. -/
theorem nulls_eq (grown : Grown root taken tables touched s next) :
    next.nulls = s.nulls := by
  have none_null : taken.count 0#64 = 0 :=
    List.count_eq_zero.mpr fun member => (grown.fresh _ member).ne_zero rfl
  rw [nulls, nulls, grown.allocs_eq, List.count_append, none_null,
    Nat.zero_add]

/-- A new table that has its own mapping need not count as touched. -/
theorem settle
    {table : Word}
    (grown : Grown root taken tables (insert (pageOf table) touched) s next)
    (member : table ∈ tables)
    (mapped : next.leafAt root table = table ||| kernelPtEntry) :
    Grown root taken tables touched s next :=
  { grown with
    reached := by
      intro path other short found
      rcases grown.reached path other short found with old | new
      · exact Or.inl old
      · obtain ⟨address, cause, suffix⟩ := new
        rcases cause with (same | inside) | new
        · refine Or.inr ⟨table, Or.inr member, ?_⟩
          have paths := (pagePath_eq_iff address table).mpr same
          rwa [(List.cons.inj paths).2] at suffix
        · exact Or.inr ⟨address, Or.inl inside, suffix⟩
        · exact Or.inr ⟨address, Or.inr new, suffix⟩
    leaf_table := by
      intro other isNew outside
      have otherFresh := grown.fresh other (grown.tables_taken other isNew)
      have tableFresh := grown.fresh table (grown.tables_taken table member)
      by_cases same : pageOf other = pageOf table
      · rw [otherFresh.pageOf_eq, tableFresh.pageOf_eq] at same
        rw [eq_of_frameOf_eq otherFresh.aligned tableFresh.aligned same,
          mapped]
      · exact grown.leaf_table other isNew (by simp [same, outside])
    leaf_other := by
      intro address outside different
      apply grown.leaf_other address _ different
      simp [different table member, outside] }

end Grown

/-! ## Taking a frame -/

/-- `alloc_frame` fails, and says so, or takes the lowest free frame. -/
theorem allocFrame_cases
    {s next : Machine} {frame : Word}
    (result : s.allocFrame = some (frame, next)) :
    (frame = 0#64 ∧ next.nulls = s.nulls + 1 ∧
        next = { s with allocs := 0#64 :: s.allocs }) ∨
      (s.pmm.Taken frame next.pmm ∧ next.nulls = s.nulls ∧
        next = { s with pmm := next.pmm, allocs := frame :: s.allocs }) := by
  obtain ⟨⟨answer, pmm⟩, answered, same⟩ := Option.map_eq_some_iff.mp result
  obtain ⟨rfl, rfl⟩ := Prod.mk.inj same
  rcases Pmm.allocFrame_cases answered with ⟨rfl, rfl, -⟩ | taken
  · exact Or.inl ⟨rfl, by simp [nulls], rfl⟩
  · refine Or.inr ⟨taken, ?_, rfl⟩
    simp [nulls, taken.ne_zero]

/-- When the log of a later machine has no new failure, the frame was
taken. -/
theorem allocFrame_taken
    {s next last : Machine} {frame : Word}
    (result : s.allocFrame = some (frame, next))
    (later : next.nulls ≤ last.nulls)
    (enough : last.nulls = s.nulls) :
    s.pmm.Taken frame next.pmm ∧ next.nulls = s.nulls ∧
      next = { s with pmm := next.pmm, allocs := frame :: s.allocs } := by
  rcases allocFrame_cases result with ⟨-, failed, -⟩ | taken
  · omega
  · exact taken

theorem allocFrame_advances
    {s next : Machine} {frame : Word}
    (result : s.allocFrame = some (frame, next)) :
    Advances s next := by
  rcases allocFrame_cases result with ⟨-, failed, same⟩ | ⟨taken, counted, same⟩
  · refine ⟨?_, by omega, ?_, ?_, ?_⟩ <;> rw [same]
  · refine ⟨taken.marked, by omega, ?_, ?_, ?_⟩ <;> rw [same]

/-- A frame that is taken changes no table. -/
theorem Grown.of_taken
    {s next : Machine} {root frame : Word} {touched : Set Nat}
    (tree : s.Tree root)
    (marks : s.pmm.Marks)
    (result : s.allocFrame = some (frame, next))
    (taken : s.pmm.Taken frame next.pmm)
    (same : next =
      { s with pmm := next.pmm, allocs := frame :: s.allocs }) :
    Grown root [frame] [] touched s next := by
  have advances := allocFrame_advances result
  have allocs_eq : next.allocs = frame :: s.allocs :=
    congrArg Machine.allocs same
  have tables_eq : next.tables = s.tables := by rw [same]
  have frameUsed : next.pmm.Used (frameOf frame) :=
    (taken.used_iff marks _).mpr (Or.inr rfl)
  clear same result
  exact
    { toAdvances := advances
      tree :=
        { distinct := tables_eq ▸ tree.distinct
          used := by
            intro table isTable
            rw [IsTable, tables_eq] at isTable
            exact advances.marked.used _ (tree.used table isTable)
          root_aligned := tree.root_aligned
          root_ne_zero := tree.root_ne_zero }
      allocs_eq := allocs_eq
      fresh := by simpa using Pmm.Fresh.of_taken taken
      taken_used := by simpa using frameUsed
      tables_taken := by simp
      keeps := by
        intro path table _ old
        rwa [nodeAt, tables_eq]
      reached := by
        intro path table _ found
        rw [nodeAt, tables_eq] at found
        exact Or.inl found
      isTable_iff := by simp [IsTable, tables_eq]
      leaf_table := by simp
      leaf_other := by
        intro address _ _
        rw [leafAt, leafAt, tables_eq] }

end Machine
end PivotOs
