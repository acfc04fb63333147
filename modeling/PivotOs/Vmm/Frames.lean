import PivotOs.Vmm.Defs
import PivotOs.Paging.MapAddr

/-!
# Mapping new frames

The loop of `init_vmm` and `valloc`: each round takes a frame and maps it at
the next page.  The relation `Grown` describes the whole loop.  `Owns` says
that a set of pages is mapped to frames of their own, which are in use and are
no tables; it survives every mapping of other pages, and every page that the
loop maps joins it.
-/

namespace PivotOs

open Paging

namespace Machine

variable {s next last : Machine} {root : Word}

/-! ## One round -/

/-- A frame was taken and mapped at an address. -/
structure Mapped (root virtual flags : Word) (frame : Word)
    (tables : List Word) (s next : Machine) : Prop where
  /-- The tree has grown by the tables made for the address. -/
  grown : Grown root (tables ++ [frame]) tables {pageOf virtual} s next
  /-- The frame was free. -/
  fresh : s.pmm.Fresh frame
  /-- It became no table. -/
  apart : ∀ table ∈ tables, frameOf table ≠ frameOf frame
  /-- It is mapped. -/
  leaf : next.leafAt root virtual = frame ||| flags
  /-- The tables of the address are there. -/
  present : (next.nodeAt root (tablePath virtual)).isSome

theorem mapFrame_advances
    {virtual flags p4Tbl : Word}
    (mapped : (s.allocFrame.bind fun result =>
      mapAddr result.1 virtual flags p4Tbl result.2) = some next) :
    Advances s next := by
  obtain ⟨⟨frame, middle⟩, answered, mapped⟩ :=
    Option.bind_eq_some_iff.mp mapped
  exact (allocFrame_advances answered).trans (mapAddr_advances mapped)

/-- A round of the loop takes a frame, which it leaves marked. -/
theorem mapFrame_takes
    {virtual flags p4Tbl : Word}
    (marks : s.pmm.Marks)
    (mapped : (s.allocFrame.bind fun result =>
      mapAddr result.1 virtual flags p4Tbl result.2) = some next)
    (enough : next.nulls = s.nulls) :
    ∃ frame middle, s.allocFrame = some (frame, middle) ∧
      s.pmm.Free (frameOf frame) ∧ next.pmm.Used (frameOf frame) ∧
      next.pmm.freeCount < s.pmm.freeCount := by
  obtain ⟨⟨frame, middle⟩, answered, mapped⟩ :=
    Option.bind_eq_some_iff.mp mapped
  have later := mapAddr_advances mapped
  obtain ⟨taken, -⟩ := allocFrame_taken answered later.nulls_le enough
  refine ⟨frame, middle, answered, taken.free, ?_,
    lt_of_le_of_lt later.marked.freeCount_le (taken.freeCount_lt marks)⟩
  apply later.marked.used
  rw [taken.used_iff marks]
  exact Or.inr rfl

/-- A round of the loop maps the frame it takes, unless the address is
null. -/
theorem mapFrame_cases
    {virtual flags : Word}
    (tree : s.Tree root)
    (marks : s.pmm.Marks)
    (mapped : (s.allocFrame.bind fun result =>
      mapAddr result.1 virtual flags root result.2) = some next)
    (enough : next.nulls = s.nulls) :
    (virtual = 0#64 ∧
        ∃ frame, Grown root [frame] [] {pageOf virtual} s next) ∨
      (virtual ≠ 0#64 ∧
        ∃ frame tables, Mapped root virtual flags frame tables s next) := by
  obtain ⟨⟨frame, middle⟩, answered, mapped⟩ :=
    Option.bind_eq_some_iff.mp mapped
  obtain ⟨taken, counted, same⟩ := allocFrame_taken answered
    (mapAddr_advances mapped).nulls_le enough
  have first : Grown root [frame] [] {pageOf virtual} s middle :=
    Grown.of_taken tree marks answered taken same
  by_cases null : virtual = 0#64
  · refine Or.inl ⟨null, frame, ?_⟩
    rw [mapAddr_null _ _ _ (Or.inr null)] at mapped
    obtain rfl := Option.some.inj mapped
    exact first
  · obtain ⟨tables, grown, leaf, present⟩ := mapAddr_maps first.tree
      (first.marks marks) taken.ne_zero null mapped
      (enough.trans counted.symm)
    have both := first.trans grown
    rw [List.append_nil] at both
    refine Or.inr ⟨null, frame, tables, both, Pmm.Fresh.of_taken taken, ?_, ?_,
      present⟩
    · intro table member equal
      have free := (grown.fresh table member).free
      exact free.2 (equal ▸ first.taken_used frame (by simp))
    · rw [leaf, alignAddr_of_aligned taken.aligned]

/-! ## Pages with frames of their own -/

/-- The pages are mapped to distinct frames that are in use and are no
tables. -/
structure Owns (root : Word) (pages : Set Nat) (s : Machine) : Prop where
  /-- The tree is well formed. -/
  tree : s.Tree root
  /-- The bitmap can mark what it hands out. -/
  marks : s.pmm.Marks
  /-- The pages lie in the higher half. -/
  high : ∀ page ∈ pages, 2 ^ 35 ≤ page
  /-- Each page is mapped. -/
  ne_zero : ∀ address, pageOf address ∈ pages →
    s.translateAddr address root ≠ 0#64
  /-- Its frame is in use. -/
  used : ∀ address, pageOf address ∈ pages →
    s.pmm.Used (frameOf (s.translateAddr address root))
  /-- Its frame has a bit that can be marked again. -/
  le_memPages : ∀ address, pageOf address ∈ pages →
    frameOf (s.translateAddr address root) ≤ s.pmm.memPages
  /-- Its frame is no table. -/
  not_isTable : ∀ address, pageOf address ∈ pages →
    ¬ s.IsTable root (s.translateAddr address root)
  /-- No two pages share a frame. -/
  distinct : ∀ left right, pageOf left ∈ pages → pageOf right ∈ pages →
    s.translateAddr left root = s.translateAddr right root →
      pageOf left = pageOf right

namespace Owns

variable {pages : Set Nat} {taken tables : List Word} {touched : Set Nat}

theorem empty (tree : s.Tree root) (marks : s.pmm.Marks) : Owns root ∅ s where
  tree := tree
  marks := marks
  high := by simp
  ne_zero := by simp
  used := by simp
  le_memPages := by simp
  not_isTable := by simp
  distinct := by simp

theorem subset
    {fewer : Set Nat}
    (owns : Owns root pages s)
    (subset : fewer ⊆ pages) :
    Owns root fewer s :=
  { owns with
    high := fun page member => owns.high page (subset member)
    ne_zero := fun address member => owns.ne_zero address (subset member)
    used := fun address member => owns.used address (subset member)
    le_memPages := fun address member =>
      owns.le_memPages address (subset member)
    not_isTable := fun address member =>
      owns.not_isTable address (subset member)
    distinct := fun left right leftIn rightIn =>
      owns.distinct left right (subset leftIn) (subset rightIn) }

/-- Tables are low, so pages of the higher half are none of theirs. -/
theorem translateAddr_eq
    (owns : Owns root pages s)
    (grown : Grown root taken tables touched s next)
    (spared : ∀ page ∈ pages, page ∉ touched)
    {address : Word}
    (member : pageOf address ∈ pages) :
    next.translateAddr address root = s.translateAddr address root := by
  apply grown.translateAddr_other (spared _ member)
  intro table isNew
  have fresh := grown.fresh table (grown.tables_taken table isNew)
  have high := owns.high _ member
  have small := fresh.small
  rw [fresh.pageOf_eq]
  omega

/-- Mapping other pages leaves the owned ones alone. -/
theorem grown
    (owns : Owns root pages s)
    (grown : Grown root taken tables touched s next)
    (spared : ∀ page ∈ pages, page ∉ touched) :
    Owns root pages next where
  tree := grown.tree
  marks := grown.marks owns.marks
  high := owns.high
  ne_zero := by
    intro address member
    rw [owns.translateAddr_eq grown spared member]
    exact owns.ne_zero address member
  used := by
    intro address member
    rw [owns.translateAddr_eq grown spared member]
    exact grown.marked.used _ (owns.used address member)
  le_memPages := by
    intro address member
    rw [owns.translateAddr_eq grown spared member, grown.marked.memPages_eq]
    exact owns.le_memPages address member
  not_isTable := by
    intro address member isTable
    rw [owns.translateAddr_eq grown spared member] at isTable
    rcases (grown.isTable_iff _).mp isTable with old | new
    · exact owns.not_isTable address member old
    · exact (grown.fresh _ (grown.tables_taken _ new)).free.2
        (owns.used address member)
  distinct := by
    intro left right leftIn rightIn
    rw [owns.translateAddr_eq grown spared leftIn,
      owns.translateAddr_eq grown spared rightIn]
    exact owns.distinct left right leftIn rightIn

/-- A page that is mapped to a new frame joins the owned ones. -/
theorem insert
    {virtual flags frame : Word}
    (owns : Owns root pages s)
    (mapped : Mapped root virtual flags frame tables s next)
    (flagsSmall : flags.toNat < 4096)
    (high : 2 ^ 35 ≤ pageOf virtual)
    (new : pageOf virtual ∉ pages) :
    Owns root (Insert.insert (pageOf virtual) pages) next := by
  have fresh := mapped.fresh
  have grown := mapped.grown
  have notNull := grown.tree.root_ne_zero
  have spared : ∀ page ∈ pages, page ∉ ({pageOf virtual} : Set Nat) := by
    rintro page member rfl
    exact new member
  have kept := owns.grown grown spared
  have mapsTo : ∀ address, pageOf address = pageOf virtual →
      next.translateAddr address root = frame := by
    intro address same
    rw [Machine.translateAddr_eq _ notNull, leafAt_eq_of_pageOf_eq same,
      mapped.leaf, or_flags_and_signMask fresh.aligned flagsSmall,
      and_signMask_of_aligned fresh.aligned
        (lt_trans fresh.toNat_lt (by decide))]
  -- The frame was free when the owned frames were already in use.
  have apart : ∀ address, pageOf address ∈ pages →
      next.translateAddr address root ≠ frame := by
    intro address member same
    rw [owns.translateAddr_eq grown spared member] at same
    exact fresh.free.2 (same ▸ owns.used address member)
  exact
    { tree := kept.tree
      marks := kept.marks
      high := by
        rintro page (rfl | member)
        · exact high
        · exact kept.high page member
      ne_zero := by
        rintro address (same | member)
        · rw [mapsTo address same]
          exact fresh.ne_zero
        · exact kept.ne_zero address member
      used := by
        rintro address (same | member)
        · rw [mapsTo address same]
          exact grown.taken_used frame (by simp)
        · exact kept.used address member
      le_memPages := by
        rintro address (same | member)
        · rw [mapsTo address same, grown.marked.memPages_eq]
          exact owns.marks _ fresh.free
        · exact kept.le_memPages address member
      not_isTable := by
        rintro address (same | member)
        · rw [mapsTo address same]
          intro isTable
          rcases (grown.isTable_iff _).mp isTable with old | isNew
          · exact fresh.free.2 (owns.tree.used frame old)
          · exact mapped.apart frame isNew rfl
        · exact kept.not_isTable address member
      distinct := by
        rintro left right (leftSame | leftIn) (rightSame | rightIn)
        · intro _
          rw [leftSame, rightSame]
        · rw [mapsTo left leftSame]
          intro same
          exact absurd same.symm (apart right rightIn)
        · rw [mapsTo right rightSame]
          intro same
          exact absurd same (apart left leftIn)
        · exact kept.distinct left right leftIn rightIn }

end Owns
/-! ## The whole loop -/

/-- The pages of the first `count` rounds. -/
def loopPages (start : Word) (count : Nat) : Set Nat :=
  {page | ∃ i, i < count ∧ page = pageOf (Pmm.pageAddress start i)}

theorem loopPages_succ (start : Word) (count : Nat) :
    loopPages start (count + 1) =
      insert (pageOf (Pmm.pageAddress start count)) (loopPages start count) := by
  ext page
  simp only [loopPages, Set.mem_ofPred_eq, Set.mem_insert_iff]
  rw [Nat.exists_lt_succ_right, or_comm]

section Loop

variable {start flags : Word} {count : Nat}

theorem mapFrames_advances
    {p4Tbl : Word}
    (mapped : mapFrames start flags p4Tbl count s = some next) :
    Advances s next := by
  induction count generalizing next with
  | zero =>
      obtain rfl := Option.some.inj mapped
      exact Advances.refl s
  | succ count inductionHypothesis =>
      obtain ⟨middle, earlier, round⟩ := Option.bind_eq_some_iff.mp mapped
      exact (inductionHypothesis earlier).trans (mapFrame_advances round)

/-- The loop takes a frame in every round. -/
theorem mapFrames_freeCount
    {p4Tbl : Word}
    (marks : s.pmm.Marks)
    (mapped : mapFrames start flags p4Tbl count s = some next)
    (enough : next.nulls = s.nulls) :
    next.pmm.freeCount + count ≤ s.pmm.freeCount := by
  induction count generalizing next with
  | zero =>
      obtain rfl := Option.some.inj mapped
      exact (Nat.add_zero _).le
  | succ count inductionHypothesis =>
      obtain ⟨middle, earlier, round⟩ := Option.bind_eq_some_iff.mp mapped
      have advances := mapFrames_advances earlier
      have before := advances.nulls_le
      have after := (mapFrame_advances round).nulls_le
      have counted := inductionHypothesis earlier (by omega)
      obtain ⟨-, -, -, -, -, fewer⟩ :=
        mapFrame_takes (advances.marked.marks marks) round (by omega)
      omega

/-- The loop grows the tree. -/
theorem mapFrames_grown
    (tree : s.Tree root)
    (marks : s.pmm.Marks)
    (mapped : mapFrames start flags root count s = some next)
    (enough : next.nulls = s.nulls) :
    ∃ taken tables,
      Grown root taken tables (loopPages start count) s next := by
  induction count generalizing next with
  | zero =>
      obtain rfl := Option.some.inj mapped
      exact ⟨[], [], Grown.refl tree⟩
  | succ count inductionHypothesis =>
      obtain ⟨middle, earlier, round⟩ := Option.bind_eq_some_iff.mp mapped
      have before := (mapFrames_advances earlier).nulls_le
      have after := (mapFrame_advances round).nulls_le
      obtain ⟨taken, tables, grown⟩ := inductionHypothesis earlier (by omega)
      have step := mapFrame_cases grown.tree (grown.marks marks) round
        (by omega)
      have grownSoFar := grown.mono (Set.subset_insert
        (pageOf (Pmm.pageAddress start count)) (loopPages start count))
      have here : {pageOf (Pmm.pageAddress start count)} ⊆
          insert (pageOf (Pmm.pageAddress start count))
            (loopPages start count) := by simp
      rw [loopPages_succ]
      rcases step with ⟨-, frame, one⟩ | ⟨-, frame, new, one⟩
      · exact ⟨_, _, grownSoFar.trans (one.mono here)⟩
      · exact ⟨_, _, grownSoFar.trans (one.grown.mono here)⟩

/-- Every page that the loop maps gets a frame of its own. -/
theorem Owns.mapFrames
    {pages : Set Nat}
    (owns : Owns root pages s)
    (flagsSmall : flags.toNat < 4096)
    (notNull : ∀ i, i < count → Pmm.pageAddress start i ≠ 0#64)
    (high : ∀ i, i < count → 2 ^ 35 ≤ pageOf (Pmm.pageAddress start i))
    (different : ∀ i j, i < count → j < count →
      pageOf (Pmm.pageAddress start i) = pageOf (Pmm.pageAddress start j) →
        i = j)
    (new : ∀ i, i < count → pageOf (Pmm.pageAddress start i) ∉ pages)
    (mapped : Machine.mapFrames start flags root count s = some next)
    (enough : next.nulls = s.nulls) :
    Owns root (pages ∪ loopPages start count) next := by
  induction count generalizing next with
  | zero =>
      obtain rfl := Option.some.inj mapped
      exact owns.subset (by simp [loopPages])
  | succ count inductionHypothesis =>
      obtain ⟨middle, earlier, round⟩ := Option.bind_eq_some_iff.mp mapped
      have before := (mapFrames_advances earlier).nulls_le
      have after := (mapFrame_advances round).nulls_le
      have ownsSoFar := inductionHypothesis
        (fun i below => notNull i (Nat.lt_succ_of_lt below))
        (fun i below => high i (Nat.lt_succ_of_lt below))
        (fun i j iBelow jBelow => different i j (Nat.lt_succ_of_lt iBelow)
          (Nat.lt_succ_of_lt jBelow))
        (fun i below => new i (Nat.lt_succ_of_lt below)) earlier (by omega)
      have step := mapFrame_cases ownsSoFar.tree ownsSoFar.marks round
        (by omega)
      have last := Nat.lt_succ_self count
      rcases step with ⟨null, -⟩ | ⟨-, frame, tables, one⟩
      · exact absurd null (notNull count last)
      · have outside : pageOf (Pmm.pageAddress start count) ∉
            pages ∪ loopPages start count := by
          rintro (old | ⟨i, below, same⟩)
          · exact new count last old
          · have equal := different count i last (Nat.lt_succ_of_lt below) same
            omega
        have joined := ownsSoFar.insert one flagsSmall (high count last)
          outside
        rwa [loopPages_succ, Set.union_insert]

end Loop

end Machine
end PivotOs
