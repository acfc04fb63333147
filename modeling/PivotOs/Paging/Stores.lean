import PivotOs.Paging.MapAddr

/-!
# `map_addr`, store by store

What `map_addr` writes, in the order in which it does: the entry of a new table,
the words of that table, what mapping the table writes, and at last the entry of
the page.  Carried out on the tables, the stores give the tables that the call
leaves.

`map_addr` does not look at what `alloc_frame` returns.  When it returns null,
the entry of the new table is stored all the same, present and pointing at
physical address 0, and the words of page 0 are cleared.
-/

namespace PivotOs

open Paging

namespace Machine

variable {s next : Machine}

/-- A word stored into a table. -/
structure TableStore where
  /-- The table. -/
  table : Word
  /-- The index of the entry. -/
  index : Fin 512
  /-- The word. -/
  word : Word
  deriving DecidableEq

/-- The stores of `clean_table`. -/
def cleanStores (table : Word) : List TableStore :=
  (List.finRange 512).map fun index => ⟨table, index, 0#64⟩

/-- The stores that put a new table at an entry. -/
def hangStores (table : Word) (index : Fin 512) (new : Word) :
    List TableStore :=
  ⟨table, index, new ||| userPtEntry⟩ :: cleanStores new

section Body

variable (identity : Word → Machine → Option Machine)
variable (inner : Word → Machine → List TableStore)

/-- The stores of one of the three tests of `map_addr`, with `inner` for those
of the call that maps a new table at its own address. -/
def ensureStores (table : Word) (index : Fin 512) (s : Machine) :
    List TableStore :=
  if s.tables table index &&& 1#64 = 0#64 then
    match (s.touch table).allocFrame with
    | none => []
    | some result =>
        hangStores table index result.1 ++
          inner result.1 (result.2.hang table index result.1)
  else []

/-- The stores of the body of `map_addr`. -/
def mapAddrWithStores (physical virtual flags p4Tbl : Word) (s : Machine) :
    List TableStore :=
  if physical = 0#64 ∨ virtual = 0#64 then []
  else
    let physical := alignAddr physical
    let virtual := alignAddr virtual
    ensureStores inner p4Tbl (p4Entry virtual) s ++
      match descend identity p4Tbl (p4Entry virtual) s with
      | none => []
      | some (p3Tbl, s) =>
          ensureStores inner p3Tbl (p3Entry virtual) s ++
            match descend identity p3Tbl (p3Entry virtual) s with
            | none => []
            | some (p2Tbl, s) =>
                ensureStores inner p2Tbl (p2Entry virtual) s ++
                  match descend identity p2Tbl (p2Entry virtual) s with
                  | none => []
                  | some (p1Tbl, _) =>
                      [⟨p1Tbl, p1Entry virtual, physical ||| flags⟩]

end Body

/-- The stores of `map_addr`, with a bound on the depth of its recursion. -/
def mapAddrStoresFuel :
    (fuel : Nat) → (physical virtual flags p4Tbl : Word) → Machine →
      List TableStore
  | 0, _, _, _, _, _ => []
  | fuel + 1, physical, virtual, flags, p4Tbl, s =>
      mapAddrWithStores
        (fun table => mapAddrFuel fuel table table kernelPtEntry p4Tbl)
        (fun table => mapAddrStoresFuel fuel table table kernelPtEntry p4Tbl)
        physical virtual flags p4Tbl s

/-- The stores of `map_addr`. -/
def mapAddrStores (physical virtual flags p4Tbl : Word) (s : Machine) :
    List TableStore :=
  mapAddrStoresFuel (2 ^ 22 + 2) physical virtual flags p4Tbl s

/-- Carry out stores in order. -/
def replay (tables : Tables) (stores : List TableStore) : Tables :=
  stores.foldl
    (fun tables st => RadixTree.write tables st.table st.index st.word) tables

theorem replay_append (tables : Tables) (first second : List TableStore) :
    replay tables (first ++ second) = replay (replay tables first) second :=
  List.foldl_append

/-- Storing zero at some indices of a table. -/
theorem replay_zeros
    (tables : Tables) (table : Word) (indices : List (Fin 512))
    (other : Word) (index : Fin 512) :
    (other = table ∧ index ∈ indices →
      replay tables (indices.map fun index => ⟨table, index, 0#64⟩) other
        index = 0#64) ∧
    (¬ (other = table ∧ index ∈ indices) →
      replay tables (indices.map fun index => ⟨table, index, 0#64⟩) other
        index = tables other index) := by
  induction indices generalizing tables with
  | nil => simp [replay]
  | cons first rest inductionHypothesis =>
      obtain ⟨inside, outside⟩ :=
        inductionHypothesis (RadixTree.write tables table first 0#64)
      rw [List.map_cons, replay, List.foldl_cons, ← replay]
      by_cases late : other = table ∧ index ∈ rest
      · refine ⟨fun _ => inside late, fun absent => ?_⟩
        exact absurd ⟨late.1, List.mem_cons_of_mem _ late.2⟩ absent
      · rw [outside late, RadixTree.write]
        constructor
        · rintro ⟨rfl, member⟩
          obtain rfl : index = first :=
            (List.mem_cons.mp member).resolve_right fun member =>
              late ⟨rfl, member⟩
          simp
        · intro absent
          rw [if_neg]
          rintro ⟨rfl, rfl⟩
          exact absent ⟨rfl, List.mem_cons_self⟩

theorem replay_hangStores (s : Machine) (table new : Word) (index : Fin 512) :
    replay s.tables (hangStores table index new) =
      (s.hang table index new).tables := by
  funext other entry
  obtain ⟨inside, outside⟩ := replay_zeros
    (RadixTree.write s.tables table index (new ||| userPtEntry)) new
    (List.finRange 512) other entry
  simp only [List.mem_finRange, and_true] at inside outside
  rw [hangStores, replay, List.foldl_cons, ← replay, cleanStores]
  simp only [hang, cleanTable, clearBelow, entry.isLt, and_true]
  by_cases here : other = new
  · rw [if_pos here]
    exact inside here
  · rw [if_neg here]
    exact outside here

/-! ## The stores are those of the call -/

section Body

variable {identity : Word → Machine → Option Machine}
variable {inner : Word → Machine → List TableStore}

/-- The stores of a level lead to the tables behind it. -/
theorem replay_ensureStores
    {table child : Word} {index : Fin 512}
    (called : ∀ table s next, identity table s = some next →
      replay s.tables (inner table s) = next.tables)
    (descended : descend identity table index s = some (child, next)) :
    replay s.tables (ensureStores inner table index s) = next.tables := by
  obtain ⟨middle, made, same⟩ := Option.map_eq_some_iff.mp descended
  obtain ⟨-, rfl⟩ := Prod.mk.inj same
  rw [ensure] at made
  rw [ensureStores]
  split at made
  · rename_i missing
    obtain ⟨⟨new, allocated⟩, answered, rest⟩ :=
      Option.bind_eq_some_iff.mp made
    have kept : allocated.tables = s.tables := by
      rcases allocFrame_cases answered with ⟨-, -, same⟩ | ⟨-, -, same⟩ <;>
        rw [same] <;> rfl
    rw [if_pos missing, answered]
    simp only
    rw [replay_append, ← kept, replay_hangStores]
    exact called new _ middle rest
  · rename_i present
    obtain rfl := Option.some.inj made
    rw [if_neg present]
    rfl

theorem replay_mapAddrWithStores
    {physical virtual flags p4Tbl : Word}
    (called : ∀ table s next, identity table s = some next →
      replay s.tables (inner table s) = next.tables)
    (mapped : mapAddrWith identity physical virtual flags p4Tbl s =
      some next) :
    replay s.tables
      (mapAddrWithStores identity inner physical virtual flags p4Tbl s) =
        next.tables := by
  rcases mapAddrWith_cases mapped with ⟨null, rfl⟩ | ⟨notNull, walk⟩
  · rw [mapAddrWithStores, if_pos null]
    rfl
  · obtain ⟨s1, s2, s3, p3Tbl, p2Tbl, p1Tbl, walked, rfl⟩ := walk
    rw [mapAddrWithStores, if_neg (not_or.mpr notNull)]
    simp only [walked.first, walked.second, walked.third, replay_append,
      replay_ensureStores called walked.first,
      replay_ensureStores called walked.second,
      replay_ensureStores called walked.third]
    rfl

end Body

theorem replay_mapAddrStoresFuel
    {fuel : Nat} {physical virtual flags p4Tbl : Word}
    (mapped : mapAddrFuel fuel physical virtual flags p4Tbl s = some next) :
    replay s.tables
      (mapAddrStoresFuel fuel physical virtual flags p4Tbl s) =
        next.tables := by
  induction fuel generalizing physical virtual flags s next with
  | zero => contradiction
  | succ fuel inductionHypothesis =>
      exact replay_mapAddrWithStores
        (fun _ _ _ called => inductionHypothesis called) mapped

/-- The stores of `map_addr`, carried out in order, are its effect on the
tables. -/
theorem replay_mapAddrStores
    {physical virtual flags p4Tbl : Word}
    (mapped : mapAddr physical virtual flags p4Tbl s = some next) :
    replay s.tables (mapAddrStores physical virtual flags p4Tbl s) =
      next.tables :=
  replay_mapAddrStoresFuel mapped

/-! ## Calls of `alloc_frame` that fail -/

/-- The store of a present entry that points at physical address 0. -/
def TableStore.PointsAtNull (st : TableStore) : Prop :=
  tableLinks.next st.word = some 0#64

instance (st : TableStore) : Decidable st.PointsAtNull :=
  inferInstanceAs (Decidable (_ = _))

/-- Stores that link page 0 as a table and write to it. -/
def LinksNull (stores : List TableStore) : Prop :=
  (∃ st ∈ stores, st.PointsAtNull) ∧ ∃ st ∈ stores, st.table = 0#64

theorem LinksNull.of_subset
    {few many : List TableStore}
    (links : LinksNull few)
    (subset : few ⊆ many) :
    LinksNull many := by
  obtain ⟨⟨st, member, points⟩, ⟨other, otherMember, isNull⟩⟩ := links
  exact ⟨⟨st, subset member, points⟩, ⟨other, subset otherMember, isNull⟩⟩

theorem linksNull_hangStores (table : Word) (index : Fin 512) :
    LinksNull (hangStores table index 0#64) := by
  constructor
  · refine ⟨_, List.mem_cons_self, ?_⟩
    change tableLinks.next (0#64 ||| userPtEntry) = some 0#64
    decide
  · refine ⟨⟨0#64, 0, 0#64⟩, List.mem_cons_of_mem _ ?_, rfl⟩
    exact List.mem_map.mpr ⟨0, List.mem_finRange 0, rfl⟩

section Body

variable {identity : Word → Machine → Option Machine}
variable {inner : Word → Machine → List TableStore}

theorem linksNull_ensureStores
    {table child : Word} {index : Fin 512}
    (called : ∀ table s next, identity table s = some next →
      s.nulls < next.nulls → LinksNull (inner table s))
    (descended : descend identity table index s = some (child, next))
    (failed : s.nulls < next.nulls) :
    LinksNull (ensureStores inner table index s) := by
  obtain ⟨middle, made, same⟩ := Option.map_eq_some_iff.mp descended
  obtain ⟨-, rfl⟩ := Prod.mk.inj same
  change s.nulls < middle.nulls at failed
  rw [ensure] at made
  rw [ensureStores]
  split at made
  · rename_i missing
    obtain ⟨⟨new, allocated⟩, answered, rest⟩ :=
      Option.bind_eq_some_iff.mp made
    rw [if_pos missing, answered]
    rcases allocFrame_cases answered with ⟨rfl, -⟩ | ⟨-, same, -⟩
    · exact (linksNull_hangStores table index).of_subset
        (List.subset_append_left _ _)
    · -- The frame was there, so a call for the new table failed.
      refine LinksNull.of_subset ?_ (List.subset_append_right _ _)
      refine called new _ middle rest ?_
      change allocated.nulls < middle.nulls
      change allocated.nulls = s.nulls at same
      omega
  · obtain rfl := Option.some.inj made
    exact absurd failed (lt_irrefl _)

theorem linksNull_mapAddrWithStores
    {physical virtual flags p4Tbl : Word}
    (called : ∀ table s next, identity table s = some next →
      s.nulls < next.nulls → LinksNull (inner table s))
    (mapped : mapAddrWith identity physical virtual flags p4Tbl s = some next)
    (failed : s.nulls < next.nulls) :
    LinksNull
      (mapAddrWithStores identity inner physical virtual flags p4Tbl s) := by
  rcases mapAddrWith_cases mapped with ⟨-, rfl⟩ | ⟨notNull, walk⟩
  · exact absurd failed (lt_irrefl _)
  · obtain ⟨s1, s2, s3, p3Tbl, p2Tbl, p1Tbl, walked, rfl⟩ := walk
    change s.nulls < s3.nulls at failed
    rw [mapAddrWithStores, if_neg (not_or.mpr notNull)]
    simp only [walked.first, walked.second, walked.third]
    by_cases first : s.nulls < s1.nulls
    · exact (linksNull_ensureStores called walked.first first).of_subset
        (List.subset_append_left _ _)
    refine LinksNull.of_subset ?_ (List.subset_append_right _ _)
    by_cases second : s1.nulls < s2.nulls
    · exact (linksNull_ensureStores called walked.second second).of_subset
        (List.subset_append_left _ _)
    refine LinksNull.of_subset ?_ (List.subset_append_right _ _)
    exact (linksNull_ensureStores called walked.third (by omega)).of_subset
      (List.subset_append_left _ _)

end Body

theorem linksNull_mapAddrStoresFuel
    {fuel : Nat} {physical virtual flags p4Tbl : Word}
    (mapped : mapAddrFuel fuel physical virtual flags p4Tbl s = some next)
    (failed : s.nulls < next.nulls) :
    LinksNull (mapAddrStoresFuel fuel physical virtual flags p4Tbl s) := by
  induction fuel generalizing physical virtual flags s next with
  | zero => contradiction
  | succ fuel inductionHypothesis =>
      exact linksNull_mapAddrWithStores
        (fun _ _ _ called failed => inductionHypothesis called failed) mapped
        failed

/-- A call of `map_addr` in which an `alloc_frame` fails does no damage: it
links no table at physical address 0, does not write page 0, and keeps the
translations of all pages but its own and those of its new tables. -/
structure NullContained (physical virtual flags root : Word)
    (s next : Machine) : Prop where
  /-- No present entry that points at address 0 is installed. -/
  unlinked : ∀ st ∈ mapAddrStores physical virtual flags root s,
    ¬ st.PointsAtNull
  /-- Page 0 is not written. -/
  unwritten : ∀ st ∈ mapAddrStores physical virtual flags root s,
    st.table ≠ 0#64
  /-- Other pages keep their translations. -/
  translations : ∀ taken address, next.allocs = taken ++ s.allocs →
    pageOf address ≠ pageOf virtual →
    (∀ table ∈ taken, pageOf address ≠ pageOf table) →
      next.translateAddr address root = s.translateAddr address root

/-- No failing `alloc_frame` is contained: its null is linked as a table, and
page 0 is cleared. -/
theorem never_nullContained
    (s next : Machine) (root physical virtual flags : Word)
    (mapped : mapAddr physical virtual flags root s = some next)
    (failed : s.nulls < next.nulls) :
    ¬ NullContained physical virtual flags root s next := by
  intro contained
  obtain ⟨⟨st, member, points⟩, -⟩ :=
    linksNull_mapAddrStoresFuel mapped failed
  exact contained.unlinked st member points

/-- The sample machine with all frames taken. -/
def exhaustedMachine : Machine :=
  { sampleMachine with
    pmm := { sampleMachine.pmm with bitmap := fun _ => Pmm.bitmapRowFull } }

theorem exhaustedMachine_tree : exhaustedMachine.Tree 0x1000#64 :=
  Tree.of_cleared (fun _ => rfl) (by decide) (by decide) (by decide)

theorem exhaustedMachine_marks : exhaustedMachine.pmm.Marks := by
  intro k free
  exact absurd (Pmm.getLsbD_bitmapRowFull (Pmm.column_lt k)) free.2

theorem exhaustedMachine_fails :
    ∃ next, mapAddr 0x2000#64 0xFFFF800000001000#64 3#64 0x1000#64
        exhaustedMachine = some next ∧
      exhaustedMachine.nulls < next.nulls := by
  have observed : (mapAddr 0x2000#64 0xFFFF800000001000#64 3#64 0x1000#64
      exhaustedMachine).map nulls = some 3 := by decide +kernel
  obtain ⟨next, mapped, three⟩ := Option.map_eq_some_iff.mp observed
  refine ⟨next, mapped, ?_⟩
  rw [three]
  decide

theorem never_nullContained_sample :
    ∃ next, mapAddr 0x2000#64 0xFFFF800000001000#64 3#64 0x1000#64
        exhaustedMachine = some next ∧
      exhaustedMachine.nulls < next.nulls ∧
      ¬ NullContained 0x2000#64 0xFFFF800000001000#64 3#64 0x1000#64
        exhaustedMachine next := by
  obtain ⟨next, mapped, failed⟩ := exhaustedMachine_fails
  exact ⟨next, mapped, failed, never_nullContained _ _ _ _ _ _ mapped failed⟩

/-- Without frames, mapping one page links page 0 as a table. -/
theorem null_linked_as_table :
    ¬ ∀ (s next : Machine) (root physical virtual flags : Word),
      s.Tree root → s.pmm.Marks →
      mapAddr physical virtual flags root s = some next →
      s.nulls < next.nulls →
        NullContained physical virtual flags root s next := by
  intro claim
  obtain ⟨next, mapped, failed⟩ := exhaustedMachine_fails
  have contained := claim _ _ _ _ _ _ exhaustedMachine_tree
    exhaustedMachine_marks mapped failed
  obtain ⟨-, ⟨st, member, isNull⟩⟩ :=
    linksNull_mapAddrStoresFuel mapped failed
  exact contained.unwritten st member isNull

end Machine
end PivotOs
