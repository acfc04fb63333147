import PivotOs.Paging.MapAddr
import PivotOs.Library.Runs

/-!
# Tables map themselves

A tree starts as a cleared root that is mapped at its own address.  Calls of
`map_addr` that map identities, or pages of the higher half, keep every table
of the tree mapped at its own address: a table is mapped when it is made, and
such calls map its page to nothing else.
-/

namespace PivotOs

open Paging

/-- The arguments of a call of `map_addr`, apart from the root. -/
structure MapCall where
  /-- `physical`. -/
  physical : Word
  /-- `virtual`. -/
  virtual : Word
  /-- `flags`. -/
  flags : Word

namespace MapCall

/-- The call maps a frame below `2 ^ 47` at its own address. -/
def Identity (call : MapCall) : Prop :=
  call.physical = call.virtual ∧ call.virtual.toNat < 2 ^ 47

/-- The call maps an identity, or a page of the higher half. -/
def KeepsTables (call : MapCall) : Prop :=
  call.flags.toNat < 4096 ∧
    (call.Identity ∨ call.virtual.getLsbD 47 = true)

end MapCall

namespace Machine

variable {s next last : Machine} {root : Word}

/-- Carry out a call on the tree. -/
def exec (root : Word) (s : Machine) (call : MapCall) : Option Machine :=
  mapAddr call.physical call.virtual call.flags root s

/-! ## One call -/

/-- Every table is below `2 ^ 47`, and its last entry is `Good`. -/
structure SelfMapped (Good : Word → Word → Prop) (root : Word) (s : Machine) :
    Prop where
  /-- The tree is well formed. -/
  tree : s.Tree root
  /-- The bitmap can mark what it hands out. -/
  marks : s.pmm.Marks
  /-- Tables are low. -/
  low : ∀ table, s.IsTable root table → table.toNat < 2 ^ 47
  /-- Their entries are good. -/
  self : ∀ table, s.IsTable root table → Good table (s.leafAt root table)

/-- Flags that make a good entry of every table. -/
def GoodFlags (Good : Word → Word → Prop) (flags : Word) : Prop :=
  ∀ table : Word, table.toNat % 4096 = 0 → table.toNat < 2 ^ 47 →
    Good table (table ||| flags)

variable {Good : Word → Word → Prop}

theorem Grown.tables_low
    {taken tables : List Word} {touched : Set Nat}
    (grown : Grown root taken tables touched s next)
    (low : ∀ table, s.IsTable root table → table.toNat < 2 ^ 47)
    {table : Word}
    (isTable : next.IsTable root table) :
    table.toNat < 2 ^ 47 := by
  rcases (grown.isTable_iff table).mp isTable with old | new
  · exact low table old
  · have fresh := grown.fresh table (grown.tables_taken table new)
    exact lt_trans fresh.toNat_lt (by decide)

/-- A table whose page is not touched has its old entry, or the one that was
made with it. -/
theorem Grown.good_entry
    {taken tables : List Word} {touched : Set Nat}
    (grown : Grown root taken tables touched s next)
    (tree : s.Tree root)
    (low : ∀ table, s.IsTable root table → table.toNat < 2 ^ 47)
    (kernel : GoodFlags Good kernelPtEntry)
    {table : Word}
    (isTable : next.IsTable root table)
    (outside : pageOf table ∉ touched)
    (self : s.IsTable root table → Good table (s.leafAt root table)) :
    Good table (next.leafAt root table) := by
  have tableLow := grown.tables_low low isTable
  rcases (grown.isTable_iff table).mp isTable with old | new
  · have small : frameOf table < 2 ^ 36 := by
      unfold frameOf pageSize
      omega
    rw [grown.leaf_other table outside fun new isNew => (grown.fresh new
      (grown.tables_taken new isNew)).pageOf_ne small (tree.used table old)]
    exact self old
  · rw [grown.leaf_table table new outside]
    exact kernel table (grown.tree.isTable_aligned isTable) tableLow

/-- A mapping that touches no page of a table keeps the entries of the
tables. -/
theorem SelfMapped.grown
    {taken tables : List Word} {touched : Set Nat}
    (selfMapped : SelfMapped Good root s)
    (kernel : GoodFlags Good kernelPtEntry)
    (grown : Grown root taken tables touched s next)
    (spared : ∀ table, next.IsTable root table → pageOf table ∉ touched) :
    SelfMapped Good root next where
  tree := grown.tree
  marks := grown.marks selfMapped.marks
  low := fun _ => grown.tables_low selfMapped.low
  self := fun table isTable =>
    grown.good_entry selfMapped.tree selfMapped.low kernel isTable
      (spared table isTable) (selfMapped.self table)

/-- A call keeps the entries of the tables.  It may also be the one that maps
a table for the first time. -/
theorem Maps.selfMapped
    (call : MapCall)
    (tree : s.Tree root)
    (marks : s.pmm.Marks)
    (low : ∀ table, s.IsTable root table → table.toNat < 2 ^ 47)
    (self : ∀ table, s.IsTable root table →
      Good table (s.leafAt root table) ∨ pageOf table = pageOf call.virtual)
    (kernel : GoodFlags Good kernelPtEntry)
    (good : GoodFlags Good call.flags)
    (kind : call.Identity ∨ call.virtual.getLsbD 47 = true)
    (maps : Maps root call.physical call.virtual call.flags s next) :
    SelfMapped Good root next := by
  obtain ⟨tables, grown, leaf, -⟩ := maps
  refine ⟨grown.tree, grown.marks marks, fun _ => grown.tables_low low, ?_⟩
  intro table isTable
  have tableLow := grown.tables_low low isTable
  by_cases page : pageOf table = pageOf call.virtual
  · -- The call maps the page of a table, so it is an identity.
    rcases kind with ⟨same, virtualLow⟩ | high
    · have aligned := grown.tree.isTable_aligned isTable
      have sameFrame : alignAddr call.virtual = table := by
        apply BitVec.eq_of_toNat_eq
        unfold pageOf pageSize at page
        rw [alignAddr_toNat]
        omega
      rw [leafAt_eq_of_pageOf_eq page, leaf, same, sameFrame]
      exact good table aligned tableLow
    · have above := le_pageOf_of_bit high
      unfold pageOf pageSize at page above
      omega
  · exact grown.good_entry tree low kernel isTable (by simpa using page)
      fun old => (self table old).resolve_right page

/-- A call that maps an identity or a page of the higher half keeps the
entries of the tables. -/
theorem SelfMapped.exec
    {call : MapCall}
    (selfMapped : SelfMapped Good root s)
    (kernel : GoodFlags Good kernelPtEntry)
    (good : GoodFlags Good call.flags)
    (kind : call.Identity ∨ call.virtual.getLsbD 47 = true)
    (stepped : exec root s call = some next)
    (enough : next.nulls = s.nulls) :
    SelfMapped Good root next := by
  by_cases null : call.physical = 0#64 ∨ call.virtual = 0#64
  · rw [Machine.exec, mapAddr_null _ _ _ null] at stepped
    obtain rfl := Option.some.inj stepped
    exact selfMapped
  · rw [not_or] at null
    have maps := mapAddr_maps selfMapped.tree selfMapped.marks null.1 null.2
      stepped enough
    exact Maps.selfMapped call selfMapped.tree selfMapped.marks selfMapped.low
      (fun table isTable => Or.inl (selfMapped.self table isTable)) kernel good
      kind maps

/-! ## Sequences of calls -/

/-- The machine was built by these calls, newest first.  Frames may be marked
as used between them. -/
inductive Built (root : Word) (s : Machine) : List MapCall → Machine → Prop
  | start : Built root s [] s
  | call {calls next last} {call : MapCall}
      (before : Built root s calls next)
      (stepped : exec root next call = some last) :
      Built root s (call :: calls) last
  | mark {calls next pmm}
      (before : Built root s calls next)
      (marked : next.pmm.Marked pmm) :
      Built root s calls { next with pmm := pmm }

namespace Built

variable {calls : List MapCall}

theorem trans
    {later : List MapCall}
    (first : Built root s calls next)
    (second : Built root next later last) :
    Built root s (later ++ calls) last := by
  induction second with
  | start => exact first
  | call _ stepped inductionHypothesis => exact inductionHypothesis.call stepped
  | mark _ marked inductionHypothesis => exact inductionHypothesis.mark marked

theorem advances (built : Built root s calls last) : Advances s last := by
  induction built with
  | start => exact Advances.refl s
  | call _ stepped inductionHypothesis =>
      exact inductionHypothesis.trans (mapAddr_advances stepped)
  | mark _ marked inductionHypothesis =>
      exact inductionHypothesis.trans
        ⟨marked, le_rfl, rfl, rfl, List.suffix_rfl⟩

theorem of_run
    {actions : List MapCall}
    (ran : Runs.run (exec root) s actions = some last) :
    Built root s actions.reverse last := by
  induction actions generalizing s with
  | nil =>
      obtain rfl : s = last := by simpa using ran
      exact start
  | cons action actions inductionHypothesis =>
      obtain ⟨next, stepped, rest⟩ := Runs.run_cons.mp ran
      rw [List.reverse_cons]
      exact (start.call stepped).trans (inductionHypothesis rest)

/-- The entries of the tables stay good over all calls; marking frames
changes no table. -/
theorem selfMapped
    (built : Built root s calls last)
    (selfMapped : SelfMapped Good root s)
    (kernel : GoodFlags Good kernelPtEntry)
    (good : ∀ call ∈ calls, GoodFlags Good call.flags)
    (kind : ∀ call ∈ calls,
      call.Identity ∨ call.virtual.getLsbD 47 = true)
    (enough : last.nulls = s.nulls) :
    SelfMapped Good root last := by
  induction built with
  | start => exact selfMapped
  | @call calls next last call before stepped inductionHypothesis =>
      have early := before.advances.nulls_le
      have late := (mapAddr_advances stepped).nulls_le
      have kept := inductionHypothesis
        (fun other member => good other (List.mem_cons_of_mem _ member))
        (fun other member => kind other (List.mem_cons_of_mem _ member))
        (by omega)
      exact kept.exec kernel (good call (by simp)) (kind call (by simp))
        stepped (by omega)
  | mark _ marked inductionHypothesis =>
      have kept := inductionHypothesis good kind enough
      exact
        { tree :=
            { kept.tree with
              used := fun table isTable =>
                marked.used _ (kept.tree.used table isTable) }
          marks := marked.marks kept.marks
          low := kept.low
          self := kept.self }

/-- The pages that the calls map. -/
def touches (calls : List MapCall) : Set Nat :=
  {page | ∃ call ∈ calls, call.physical ≠ 0#64 ∧ call.virtual ≠ 0#64 ∧
    page = pageOf call.virtual}

theorem touches_cons_of_null
    {call : MapCall}
    (null : call.physical = 0#64 ∨ call.virtual = 0#64) :
    touches (call :: calls) = touches calls := by
  ext page
  simp only [touches, Set.mem_ofPred_eq, List.mem_cons, exists_eq_or_imp]
  tauto

/-- The calls make tables for the pages they map, and for the tables. -/
theorem grown
    (built : Built root s calls last)
    (tree : s.Tree root)
    (marks : s.pmm.Marks)
    (enough : last.nulls = s.nulls) :
    ∃ tables, Grown root tables tables (touches calls) s last ∧
      ∀ call ∈ calls, call.physical ≠ 0#64 → call.virtual ≠ 0#64 →
        (last.nodeAt root (tablePath call.virtual)).isSome := by
  induction built with
  | start => exact ⟨[], Grown.refl tree, by simp⟩
  | @call calls next last call before stepped inductionHypothesis =>
      have early := before.advances.nulls_le
      have late := (mapAddr_advances stepped).nulls_le
      obtain ⟨tables, grown, present⟩ := inductionHypothesis (by omega)
      by_cases null : call.physical = 0#64 ∨ call.virtual = 0#64
      · rw [Machine.exec, mapAddr_null _ _ _ null] at stepped
        obtain rfl := Option.some.inj stepped
        refine ⟨tables, by rwa [touches_cons_of_null null], ?_⟩
        intro other member physical_ne virtual_ne
        rcases List.mem_cons.mp member with rfl | old
        · exact absurd null (not_or.mpr ⟨physical_ne, virtual_ne⟩)
        · exact present other old physical_ne virtual_ne
      · have notNull := not_or.mp null
        obtain ⟨new, one, -, here⟩ := mapAddr_maps grown.tree
          (grown.marks marks) notNull.1 notNull.2 stepped (by omega)
        have earlier : touches calls ⊆ touches (call :: calls) := by
          rintro page ⟨other, member, rest⟩
          exact ⟨other, List.mem_cons_of_mem _ member, rest⟩
        have now : {pageOf call.virtual} ⊆ touches (call :: calls) := by
          rintro page rfl
          exact ⟨call, by simp, notNull.1, notNull.2, rfl⟩
        refine ⟨_, (grown.mono earlier).trans (one.mono now), ?_⟩
        intro other member physical_ne virtual_ne
        rcases List.mem_cons.mp member with rfl | old
        · exact here
        · obtain ⟨table, found⟩ := Option.isSome_iff_exists.mp
            (present other old physical_ne virtual_ne)
          rw [one.keeps _ table (by simp [tablePath]) found]
          rfl
  | mark before marked inductionHypothesis =>
      obtain ⟨tables, grown, present⟩ := inductionHypothesis enough
      refine ⟨tables, ?_, present⟩
      exact
        { grown with
          marked := grown.marked.trans marked
          nulls_le := grown.nulls_le
          pml4_eq := grown.pml4_eq
          cr3_eq := grown.cr3_eq
          logged := grown.logged
          tree :=
            { grown.tree with
              used := fun table isTable =>
                marked.used _ (grown.tree.used table isTable) }
          taken_used := fun frame member =>
            marked.used _ (grown.taken_used frame member) }

end Built

/-! ## Tables that translate to themselves -/

/-- The entry translates to the table. -/
def TranslatesTo (table entry : Word) : Prop := entry &&& signMask = table

theorem goodFlags_translatesTo
    {flags : Word}
    (small : flags.toNat < 4096) :
    GoodFlags TranslatesTo flags := by
  intro table aligned low
  rw [TranslatesTo, or_flags_and_signMask aligned small,
    and_signMask_of_aligned aligned (lt_trans low (by decide))]

/-- From a cleared root that is first mapped at its own address, every
sequence of calls that map identities or pages of the higher half returns, and
leaves every table mapped at its own address. -/
theorem tables_map_themselves
    (s : Machine) (root flags : Word) (calls : List MapCall)
    (cleared : ∀ index, s.tables root index = 0#64)
    (used : s.pmm.Used (frameOf root))
    (aligned : root.toNat % 4096 = 0)
    (notNull : root ≠ 0#64)
    (rootLow : root.toNat < 2 ^ 47)
    (marks : s.pmm.Marks)
    (flagsSmall : flags.toNat < 4096)
    (allowed : ∀ call ∈ calls, call.KeepsTables) :
    (s.pmm.bitmapEntries < 2 ^ 16 →
      (Runs.run (exec root) s (⟨root, root, flags⟩ :: calls)).isSome) ∧
    ∀ last, Runs.run (exec root) s (⟨root, root, flags⟩ :: calls) = some last →
      last.nulls = s.nulls →
        ∀ table, last.IsTable root table →
          last.translateAddr table root = table := by
  have tree := Tree.of_cleared cleared used aligned notNull
  refine ⟨?_, ?_⟩
  · intro short
    refine Runs.run_isSome
      (fun t => t.pmm.bitmapEntries < 2 ^ 16 ∧ t.pmm.Marks) ?_ _ ⟨short, marks⟩
    rintro t call ⟨tShort, tMarks⟩
    obtain ⟨next, stepped⟩ := Option.isSome_iff_exists.mp
      (mapAddr_isSome tShort tMarks call.physical call.virtual call.flags root)
    have marked := (mapAddr_advances stepped).marked
    exact ⟨next, stepped, lt_of_eq_of_lt marked.entries_eq tShort,
      marked.marks tMarks⟩
  · intro last ran enough
    obtain ⟨first, mapped, rest⟩ := Runs.run_cons.mp ran
    have built := Built.of_run rest
    have before := (mapAddr_advances mapped).nulls_le
    have after := built.advances.nulls_le
    have onlyRoot : ∀ table, s.IsTable root table → table = root :=
      fun table => RadixTree.member_of_cleared cleared
    have kernel : GoodFlags TranslatesTo kernelPtEntry :=
      goodFlags_translatesTo (by decide)
    have started : SelfMapped TranslatesTo root first := by
      refine Maps.selfMapped ⟨root, root, flags⟩ tree marks ?_ ?_ kernel
        (goodFlags_translatesTo flagsSmall) (Or.inl ⟨rfl, rootLow⟩)
        (mapAddr_maps tree marks notNull notNull mapped (by omega))
      · intro table isTable
        rw [onlyRoot table isTable]
        exact rootLow
      · intro table isTable
        rw [onlyRoot table isTable]
        exact Or.inr rfl
    have finished := built.selfMapped started kernel
      (fun call member => goodFlags_translatesTo
        (allowed call (List.mem_reverse.mp member)).1)
      (fun call member => (allowed call (List.mem_reverse.mp member)).2)
      (by omega)
    intro table isTable
    rw [translateAddr_eq table notNull]
    exact finished.self table isTable

theorem tables_map_themselves_sample :
    ∃ last, Runs.run (exec 0x1000#64) sampleMachine
        [⟨0x1000#64, 0x1000#64, 3#64⟩,
          ⟨0x2000#64, 0xFFFF800000002000#64, 3#64⟩,
          ⟨0xFEE00000#64, 0xFEE00000#64, 19#64⟩] = some last ∧
      last.nulls = sampleMachine.nulls ∧
      ∀ table, last.IsTable 0x1000#64 table →
        last.translateAddr table 0x1000#64 = table := by
  have ran : (Runs.run (exec 0x1000#64) sampleMachine
      [⟨0x1000#64, 0x1000#64, 3#64⟩,
        ⟨0x2000#64, 0xFFFF800000002000#64, 3#64⟩,
        ⟨0xFEE00000#64, 0xFEE00000#64, 19#64⟩]).map nulls = some 0 := by
    decide +kernel
  obtain ⟨last, eq, noNull⟩ := Option.map_eq_some_iff.mp ran
  refine ⟨last, eq, noNull, ?_⟩
  refine (tables_map_themselves sampleMachine 0x1000#64 3#64 _ (fun _ => rfl)
    (by decide) (by decide) (by decide) (by decide) sampleMachine_marks
    (by decide) ?_).2 last eq noNull
  intro call member
  simp only [List.mem_cons, List.not_mem_nil, or_false] at member
  rcases member with rfl | rfl
  · exact ⟨by decide, Or.inr (by decide)⟩
  · exact ⟨by decide, Or.inl ⟨rfl, by decide⟩⟩

end Machine
end PivotOs
