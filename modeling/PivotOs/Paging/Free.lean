import PivotOs.Paging.SelfMap

/-!
# Giving a tree of page tables back

`free_page_table` walks through a tree and clears the bit of every table,
children before their parent.  It changes no table on the way.  A tree that
`map_addr` built has its tables in distinct frames, and these are exactly the
frames that `alloc_frame` handed out in its calls, so every one of them is
given back once.
-/

namespace PivotOs

open Paging

namespace Machine

variable {s next last : Machine} {root : Word}

/-- `free_page_table`. -/
def freePageTable : (level : Nat) → (table : Word) → Machine → Machine
  | 0, table, s => { s with pmm := s.pmm.pmmClearBit (paddr table) }
  | level + 1, table, s =>
      let s :=
        if 1 < level + 1 then
          (List.finRange 512).foldl (fun s i =>
            if s.tables table i &&& 1#64 = 0#64 then s
            else freePageTable level (s.tables table i &&& signMask) s) s
        else s
      { s with pmm := s.pmm.pmmClearBit (paddr table) }

/-- The tables for which `free_page_table` clears a bit, in its order. -/
def freedTables (tables : Tables) : (level : Nat) → (table : Word) → List Word
  | 0, table => [table]
  | level + 1, table =>
      (if 1 < level + 1 then
        (List.finRange 512).flatMap fun i =>
          if tables table i &&& 1#64 = 0#64 then []
          else freedTables tables level (tables table i &&& signMask)
      else []) ++ [table]

/-- Clear the bits of tables one after another. -/
def clearTables (m : Pmm) (tables : List Word) : Pmm :=
  tables.foldl (fun m table => m.pmmClearBit (paddr table)) m

theorem clearTables_append (m : Pmm) (first second : List Word) :
    clearTables m (first ++ second) =
      clearTables (clearTables m first) second :=
  List.foldl_append

theorem clearTables_singleton (m : Pmm) (table : Word) :
    clearTables m [table] = m.pmmClearBit (paddr table) := rfl

theorem used_clearTables (m : Pmm) (tables : List Word) (k : Nat) :
    (clearTables m tables).Used k ↔
      m.Used k ∧ ∀ table ∈ tables,
        ¬ (paddr table ≠ 0#64 ∧ k = frameOf (paddr table)) := by
  induction tables generalizing m with
  | nil => simp [clearTables]
  | cons table tables inductionHypothesis =>
      have step : clearTables m (table :: tables) =
          clearTables (m.pmmClearBit (paddr table)) tables := rfl
      rw [step, inductionHypothesis, Pmm.used_pmmClearBit, List.forall_mem_cons,
        and_assoc]

/-- `free_page_table` clears the bits of the tables it visits, and changes
nothing else. -/
theorem freePageTable_eq (level : Nat) (table : Word) (s : Machine) :
    freePageTable level table s =
      { s with pmm := clearTables s.pmm (freedTables s.tables level table) } := by
  induction level generalizing table s with
  | zero => rfl
  | succ level inductionHypothesis =>
      -- The loop over the entries, from any entry on.
      have loop : ∀ (indices : List (Fin 512)) (s : Machine),
          indices.foldl (fun s i =>
            if s.tables table i &&& 1#64 = 0#64 then s
            else freePageTable level (s.tables table i &&& signMask) s) s =
          { s with
            pmm := clearTables s.pmm (indices.flatMap fun i =>
              if s.tables table i &&& 1#64 = 0#64 then []
              else freedTables s.tables level
                (s.tables table i &&& signMask)) } := by
        intro indices
        induction indices with
        | nil => exact fun _ => rfl
        | cons i indices restHypothesis =>
            intro s
            rw [List.foldl_cons, List.flatMap_cons, clearTables_append]
            by_cases absent : s.tables table i &&& 1#64 = 0#64
            · rw [if_pos absent, if_pos absent, restHypothesis]
              rfl
            · rw [if_neg absent, if_neg absent, inductionHypothesis,
                restHypothesis]
      rw [freePageTable, freedTables, clearTables_append, clearTables_singleton]
      by_cases inner : 1 < level + 1
      · rw [if_pos inner, if_pos inner, loop]
      · rw [if_neg inner, if_neg inner]
        rfl

/-- The tables are visited in postorder. -/
theorem freedTables_eq_postorder
    (tables : Tables) (level : Nat) (table : Word) :
    freedTables tables (level + 1) table =
      RadixTree.postorder tableLinks tables (List.finRange 512) (level + 1)
        table := by
  induction level generalizing table with
  | zero =>
      have none : ∀ i, (tableLinks.next (tables table i)).elim []
          (fun _ => ([] : List Word)) = [] := by
        intro i
        cases tableLinks.next (tables table i) <;> rfl
      simp [freedTables, RadixTree.postorder, none]
  | succ level inductionHypothesis =>
      rw [freedTables, RadixTree.postorder, if_pos (by omega)]
      congr 2
      funext i
      simp only [tableLinks]
      split
      · rfl
      · exact inductionHypothesis _

/-- The tables of a tree are visited once each. -/
theorem Tree.freedTables_nodup (tree : s.Tree root) :
    (freedTables s.tables 4 root).Nodup := by
  rw [freedTables_eq_postorder]
  exact tree.distinct.postorder_nodup List.mem_finRange (List.nodup_finRange 512)

theorem mem_freedTables_iff {table : Word} :
    table ∈ freedTables s.tables 4 root ↔ s.IsTable root table := by
  rw [freedTables_eq_postorder]
  exact RadixTree.mem_postorder_iff List.mem_finRange

/-! ## Frames that are handed out -/

/-- From `s` to `next`, `alloc_frame` handed out frames that were free, marked
them, and handed out none twice. -/
structure HandsOut (taken : List Word) (s next : Machine) : Prop where
  /-- The log has the answers. -/
  allocs_eq : next.allocs = taken ++ s.allocs
  /-- No bit was cleared. -/
  marked : s.pmm.Marked next.pmm
  /-- The frames were free. -/
  free : ∀ frame ∈ taken, frame ≠ 0#64 → s.pmm.Free (frameOf frame)
  /-- They are marked. -/
  used : ∀ frame ∈ taken, frame ≠ 0#64 → next.pmm.Used (frameOf frame)
  /-- They are different. -/
  distinct : (taken.filter (· ≠ 0#64)).Nodup

namespace HandsOut

variable {taken later : List Word}

theorem of_eq
    (pmm_eq : next.pmm = s.pmm)
    (allocs_eq : next.allocs = s.allocs) :
    HandsOut [] s next where
  allocs_eq := allocs_eq
  marked := pmm_eq ▸ Pmm.Marked.refl s.pmm
  free := by simp
  used := by simp
  distinct := by simp

/-- What is handed out later was not handed out before. -/
theorem trans
    (first : HandsOut taken s next)
    (second : HandsOut later next last) :
    HandsOut (later ++ taken) s last where
  allocs_eq := by rw [second.allocs_eq, first.allocs_eq, List.append_assoc]
  marked := first.marked.trans second.marked
  free := by
    intro frame member notNull
    cases List.mem_append.mp member with
    | inl new => exact first.marked.free (second.free frame new notNull)
    | inr old => exact first.free frame old notNull
  used := by
    intro frame member notNull
    cases List.mem_append.mp member with
    | inl new => exact second.used frame new notNull
    | inr old => exact second.marked.used _ (first.used frame old notNull)
  distinct := by
    rw [List.filter_append, List.nodup_append']
    refine ⟨second.distinct, first.distinct, ?_⟩
    intro frame new old
    obtain ⟨newTaken, notNull⟩ := List.mem_filter.mp new
    have notNull : frame ≠ 0#64 := by simpa using notNull
    exact (second.free frame newTaken notNull).2
      (first.used frame (List.mem_filter.mp old).1 notNull)

theorem of_allocFrame
    {frame : Word}
    (marks : s.pmm.Marks)
    (answered : s.allocFrame = some (frame, next)) :
    HandsOut [frame] s next := by
  rcases allocFrame_cases answered with ⟨rfl, -, same⟩ | ⟨taken, -, same⟩
  · exact
      { allocs_eq := by rw [same]; rfl
        marked := by rw [same]
        free := by simp
        used := by simp
        distinct := by simp }
  · exact
      { allocs_eq := by rw [same]; rfl
        marked := taken.marked
        free := by
          intro other member _
          rw [List.mem_singleton.mp member]
          exact taken.free
        used := by
          intro other member _
          rw [List.mem_singleton.mp member, taken.used_iff marks]
          exact Or.inr rfl
        distinct := (List.nodup_singleton frame).filter _ }

/-- The steps of `map_addr` hand out frames. -/
theorem closed :
    StepClosed fun s next => s.pmm.Marks → ∃ taken, HandsOut taken s next where
  refl := fun _ _ => ⟨[], of_eq rfl rfl⟩
  trans := by
    intro s next last first second marks
    obtain ⟨taken, early⟩ := first marks
    obtain ⟨later, late⟩ := second (early.marked.marks marks)
    exact ⟨later ++ taken, early.trans late⟩
  touch := fun _ _ _ => ⟨[], of_eq rfl rfl⟩
  store := fun _ _ _ _ _ => ⟨[], of_eq rfl rfl⟩
  hang := fun _ _ _ _ _ => ⟨[], of_eq rfl rfl⟩
  alloc := fun answered marks => ⟨_, of_allocFrame marks answered⟩

end HandsOut

theorem Built.handsOut
    {calls : List MapCall}
    (built : Built root s calls last)
    (marks : s.pmm.Marks) :
    ∃ taken, HandsOut taken s last := by
  induction built with
  | start => exact ⟨[], HandsOut.of_eq rfl rfl⟩
  | call before stepped inductionHypothesis =>
      obtain ⟨taken, early⟩ := inductionHypothesis
      obtain ⟨later, late⟩ := HandsOut.closed.mapAddr stepped
        (early.marked.marks marks)
      exact ⟨later ++ taken, early.trans late⟩
  | mark before marked inductionHypothesis =>
      obtain ⟨taken, early⟩ := inductionHypothesis
      refine ⟨taken, ?_⟩
      exact
        { early with
          marked := early.marked.trans marked
          used := fun frame member notNull =>
            marked.used _ (early.used frame member notNull) }

/-! ## Trees that `map_addr` built -/

/-- From a cleared root that `alloc_frame` handed out, any calls of `map_addr`
for which there were enough frames build a tree that `free_page_table` gives
back: the root and every table that the calls took are visited exactly once,
their bits were set and are cleared, and every other bit stays. -/
theorem freePageTable_gives_back
    (s allocated last : Machine) (p4Tbl : Word) (calls : List MapCall)
    (marks : s.pmm.Marks)
    (answered : s.allocFrame = some (p4Tbl, allocated))
    (built : Built p4Tbl (allocated.cleanTable p4Tbl) calls last)
    (enough : last.nulls = s.nulls) :
    ∃ tables, last.allocs = tables ++ p4Tbl :: s.allocs ∧
      (p4Tbl :: tables).Nodup ∧
      (freedTables last.tables 4 p4Tbl).Perm (p4Tbl :: tables) ∧
      (∀ table ∈ p4Tbl :: tables, last.pmm.Used (frameOf table)) ∧
      ∀ k, (freePageTable 4 p4Tbl last).pmm.Used k ↔
        last.pmm.Used k ∧ ∀ table ∈ p4Tbl :: tables, k ≠ frameOf table := by
  have after : allocated.nulls ≤ last.nulls := built.advances.nulls_le
  obtain ⟨taken, counted, same⟩ := allocFrame_taken answered after enough
  obtain ⟨cleared, tree⟩ := cleanTable_tree marks taken
  have marksNow : (allocated.cleanTable p4Tbl).pmm.Marks :=
    taken.marked.marks marks
  obtain ⟨tables, grown, -⟩ := built.grown tree marksNow (by
    change last.nulls = allocated.nulls
    exact enough.trans counted.symm)
  obtain ⟨frames, handsOut⟩ := built.handsOut marksNow
  obtain rfl : frames = tables :=
    List.append_cancel_right (handsOut.allocs_eq.symm.trans grown.allocs_eq)
  have rootUsed : (allocated.cleanTable p4Tbl).pmm.Used (frameOf p4Tbl) :=
    (taken.used_iff marks _).mpr (Or.inr rfl)
  have nodup : (p4Tbl :: frames).Nodup := by
    refine List.nodup_cons.mpr ⟨?_, ?_⟩
    · intro member
      exact (grown.fresh p4Tbl member).free.2 rootUsed
    · have all : frames.filter (· ≠ 0#64) = frames := by
        rw [List.filter_eq_self]
        intro frame member
        simpa using (grown.fresh frame member).ne_zero
      rw [← all]
      exact handsOut.distinct
  have isTable_iff : ∀ table,
      last.IsTable p4Tbl table ↔ table ∈ p4Tbl :: frames := by
    intro table
    rw [grown.isTable_iff, List.mem_cons]
    refine or_congr_left ⟨RadixTree.member_of_cleared cleared, ?_⟩
    rintro rfl
    exact isTable_root _ _
  have low : ∀ table ∈ p4Tbl :: frames, table ≠ 0#64 ∧ paddr table = table := by
    intro table member
    cases List.mem_cons.mp member with
    | inl here =>
        have small := (Pmm.Fresh.of_taken taken).toNat_lt
        exact ⟨here ▸ taken.ne_zero, paddr_of_low (here ▸ small.trans (by decide))⟩
    | inr new =>
        have fresh := grown.fresh table new
        exact ⟨fresh.ne_zero, paddr_of_low (fresh.toNat_lt.trans (by decide))⟩
  have perm : (freedTables last.tables 4 p4Tbl).Perm (p4Tbl :: frames) := by
    rw [List.perm_ext_iff_of_nodup grown.tree.freedTables_nodup nodup]
    intro table
    rw [mem_freedTables_iff, isTable_iff]
  refine ⟨frames, ?_, nodup, perm, ?_, ?_⟩
  · rw [grown.allocs_eq]
    change frames ++ allocated.allocs = _
    rw [same]
  · intro table member
    exact grown.tree.used table ((isTable_iff table).mpr member)
  · intro k
    rw [freePageTable_eq, used_clearTables]
    refine and_congr_right fun _ => ?_
    constructor
    · intro apart table member here
      obtain ⟨notNull, same⟩ := low table member
      refine apart table (perm.mem_iff.mpr member) ?_
      rw [same]
      exact ⟨notNull, here⟩
    · rintro apart table member ⟨-, here⟩
      have listed := perm.mem_iff.mp member
      rw [(low table listed).2] at here
      exact apart table listed here

theorem freePageTable_gives_back_sample :
    ∃ allocated last, sampleMachine.allocFrame = some (0x3000#64, allocated) ∧
      Runs.run (exec 0x3000#64) (allocated.cleanTable 0x3000#64)
        [⟨0x3000#64, 0x3000#64, 3#64⟩,
          ⟨0x2000#64, 0xFFFF800000002000#64, 3#64⟩] = some last ∧
      ¬ (freePageTable 4 0x3000#64 last).pmm.Used 3 ∧
      (freePageTable 4 0x3000#64 last).pmm.Used 2 := by
  have observed : (sampleMachine.allocFrame.bind fun result =>
      (Runs.run (exec 0x3000#64) (result.2.cleanTable 0x3000#64)
        [⟨0x3000#64, 0x3000#64, 3#64⟩,
          ⟨0x2000#64, 0xFFFF800000002000#64, 3#64⟩]).map fun last =>
          (result.1, last.allocs.all fun frame => frameOf frame != 2,
            last.nulls, decide (last.pmm.Used 2))) =
      some (0x3000#64, true, 0, true) := by decide +kernel
  obtain ⟨⟨frame, allocated⟩, answered, ran⟩ :=
    Option.bind_eq_some_iff.mp observed
  obtain ⟨last, ran, same⟩ := Option.map_eq_some_iff.mp ran
  simp only [Prod.mk.injEq, decide_eq_true_eq] at same
  obtain ⟨rfl, apart, nulls, used⟩ := same
  obtain ⟨tables, allocs_eq, -, -, -, used_iff⟩ :=
    freePageTable_gives_back sampleMachine allocated last 0x3000#64 _
      sampleMachine_marks answered (Built.of_run ran) nulls
  refine ⟨allocated, last, answered, ran, ?_, ?_⟩
  · intro kept
    exact ((used_iff 3).mp kept).2 0x3000#64 List.mem_cons_self (by decide)
  · refine (used_iff 2).mpr ⟨used, ?_⟩
    intro table member here
    have logged : table ∈ last.allocs := by
      rw [allocs_eq, List.mem_append, List.mem_cons]
      exact (List.mem_cons.mp member).symm.imp_right Or.inl
    have other := List.all_eq_true.mp apart table logged
    simp [← here] at other

end Machine
end PivotOs
