import PivotOs.Paging.SelfMap

/-!
# Tables at the moment of access

The kernel reads and writes a table at its own address, so once the processor
walks the tree that is being changed, the table must be mapped there.  A call
of `map_addr` whose tables are all there touches tables that were mapped
before it.  A call that makes a table cleans it before mapping it, and the
processor does not find it then.
-/

namespace PivotOs

open Paging

namespace Machine

variable {s next middle last : Machine} {root : Word}

/-! ## The log of accesses -/

/-- Every table touched between the two states was found at its own
address. -/
def Found (s next : Machine) : Prop :=
  ∀ new, next.accesses = new ++ s.accesses → ∀ access ∈ new, access.2 = true

namespace Found

theorem of_accesses
    {new : List (Word × Bool)}
    (logged : next.accesses = new ++ s.accesses)
    (all : ∀ access ∈ new, access.2 = true) :
    Found s next := by
  intro other same
  rw [logged] at same
  rwa [← List.append_cancel_right same]

theorem trans
    (found : Found s next)
    (later : Found next last)
    (first : Advances s next)
    (second : Advances next last) :
    Found s last := by
  obtain ⟨early, earlyEq⟩ := first.logged
  obtain ⟨late, lateEq⟩ := second.logged
  have logged : last.accesses = (late ++ early) ++ s.accesses := by
    rw [List.append_assoc, earlyEq, lateEq]
  apply of_accesses logged
  · intro access member
    rcases List.mem_append.mp member with inLate | inEarly
    · exact later late lateEq.symm access inLate
    · exact found early earlyEq.symm access inEarly

/-- A part of a run touches no more than the whole. -/
theorem within
    (found : Found s last)
    (before : Advances s next)
    (after : Advances middle last) :
    Found next middle := by
  obtain ⟨early, earlyEq⟩ := before.logged
  obtain ⟨late, lateEq⟩ := after.logged
  intro new same access member
  apply found (late ++ new ++ early)
  · rw [List.append_assoc, earlyEq, List.append_assoc, ← same, lateEq]
  · simp [member]

end Found

/-- The processor finds a table that its last entry points to. -/
theorem reaches_iff
    (aligned : root.toNat % 4096 = 0)
    (low : root.toNat < 2 ^ 52)
    (table : Word) :
    reaches s.tables root table = true ↔
      tableLinks.next (s.leafAt root table) = some table := by
  rw [reaches, and_signMask_of_aligned aligned low, mmu_eq, beq_iff_eq]

/-! ## When the tables are there -/

section Present

variable {identity : Word → Machine → Option Machine}
variable {physical virtual flags : Word}

theorem descend_of_present
    {table child : Word} {index : Fin 512}
    (points : tableLinks.next (s.tables table index) = some child) :
    descend identity table index s =
      some (child, (s.touch table).touch table) := by
  have present : ¬ s.tables table index &&& 1#64 = 0#64 := by
    rw [← next_eq_none_iff, points]
    simp
  rw [descend, ensure, if_neg present, Option.map_some,
    ← next_eq_some points]
  rfl

/-- A level whose entry is present only reads it. -/
theorem descend_reads
    {table child answer : Word} {index : Fin 512}
    (descended : descend identity table index s = some (answer, next))
    (points : tableLinks.next (s.tables table index) = some child) :
    answer = child ∧ next = (s.touch table).touch table := by
  rw [descend_of_present points] at descended
  obtain ⟨rfl, rfl⟩ := Prod.mk.inj (Option.some.inj descended)
  exact ⟨rfl, rfl⟩

/-- One word of a table is written after tables were visited. -/
def rewritten (s : Machine) (visited : List Word) (table : Word)
    (index : Fin 512) (word : Word) : Machine :=
  { s with
    tables := RadixTree.write s.tables table index word
    accesses := visited.map (fun other =>
      (other, reaches s.tables s.cr3 other)) ++ s.accesses }

theorem mapAddrWith_present
    {table : Word}
    (found : s.nodeAt root (tablePath virtual) = some table)
    (physical_ne : physical ≠ 0#64)
    (virtual_ne : virtual ≠ 0#64) :
    ∃ visited : List Word,
      mapAddrWith identity physical virtual flags root s =
        some (s.rewritten visited table (p1Entry virtual)
          (alignAddr physical ||| flags)) ∧
      root ∈ visited ∧ ∀ other ∈ visited, s.IsTable root other := by
  have entry : p1Entry (alignAddr virtual) = p1Entry virtual :=
    (List.cons.inj (pagePath_alignAddr virtual)).1
  rw [← tablePath_alignAddr] at found
  obtain ⟨p2Tbl, found2, points2⟩ := Option.bind_eq_some_iff.mp found
  obtain ⟨p3Tbl, found3, points3⟩ := Option.bind_eq_some_iff.mp found2
  obtain ⟨p4Tbl, found4, points4⟩ := Option.bind_eq_some_iff.mp found3
  obtain rfl : root = p4Tbl := Option.some.inj found4
  have tables : s.IsTable root table ∧ s.IsTable root p2Tbl ∧
      s.IsTable root p3Tbl ∧ s.IsTable root root :=
    ⟨⟨_, by simp [tablePath], found⟩, ⟨_, by simp, found2⟩,
      ⟨_, by simp, found3⟩, isTable_root _ _⟩
  -- Each level reads its entry twice, and the last table is written once.
  refine ⟨[table, p2Tbl, p2Tbl, p3Tbl, p3Tbl, root, root], ?_, by simp,
    by simpa using tables⟩
  rw [mapAddrWith_of_walked physical_ne virtual_ne
    ⟨descend_of_present points4, descend_of_present points3,
      descend_of_present points2⟩, entry]
  simp only [rewritten, store, touch, List.map_cons, List.map_nil,
    List.cons_append, List.nil_append]

/-- Where the tables are there, `map_addr` takes no frame, writes one entry,
and touches tables of the tree only, the root among them. -/
theorem mapAddr_present
    {table : Word} (flags : Word)
    (found : s.nodeAt root (tablePath virtual) = some table)
    (physical_ne : physical ≠ 0#64)
    (virtual_ne : virtual ≠ 0#64) :
    ∃ visited : List Word,
      mapAddr physical virtual flags root s =
        some (s.rewritten visited table (p1Entry virtual)
          (alignAddr physical ||| flags)) ∧
      root ∈ visited ∧ ∀ other ∈ visited, s.IsTable root other := by
  rw [mapAddr, mapAddrFuel]
  exact mapAddrWith_present found physical_ne virtual_ne

end Present

/-! ## When a table is missing -/

section Missing

variable {identity : Word → Machine → Option Machine}

theorem Tree.touch (tree : s.Tree root) (table : Word) :
    (s.touch table).Tree root :=
  { tree with }

/-- Writing an entry that an address does not go through leaves its
translation alone. -/
theorem mmu_write_of_not_suffix
    {table word address : Word} {index : Fin 512} {path : List (Fin 512)}
    (tree : s.Tree root)
    (found : s.nodeAt root path = some table)
    (inner : path.length + 1 < 4)
    (apart : ¬ index :: path <:+ tablePath address) :
    mmu (RadixTree.write s.tables table index word) root address =
      mmu s.tables root address := by
  apply RadixTree.nodeAt_write_of_not_suffix tree.distinct (by omega) found
    _ (by simp [pagePath, tablePath])
  intro suffix
  rcases List.suffix_cons_iff.mp suffix with whole | behind
  · have lengths := congrArg List.length whole
    simp only [tablePath, List.length_cons, List.length_nil] at lengths
    omega
  · exact apart behind

theorem clearBelow_zero (tables : Tables) (table : Word) :
    clearBelow tables table 0 = tables := by
  funext other index
  simp [clearBelow]

/-- A new table is touched 512 times, after its entry was written. -/
theorem hang_accesses (table new : Word) (index : Fin 512) :
    (s.hang table index new).accesses =
      ((List.range 512).reverse.map (fun i =>
        (new, reaches (clearBelow (RadixTree.write s.tables table index
          (new ||| userPtEntry)) new i) s.cr3 new)) ++
        [(table, reaches s.tables s.cr3 table)]) ++ s.accesses := by
  rw [List.append_assoc]
  rfl

variable
  (advances : ∀ table s next, identity table s = some next → Advances s next)
  (tree : s.Tree root)
  (rootLow : root.toNat < 2 ^ 52)
  (active : s.cr3 = root)
  (unmapped : ∀ frame, s.pmm.Fresh frame → s.leafAt root frame = 0#64)

include advances tree rootLow active unmapped

/-- A new table that is not behind its own entry is cleaned before it is
mapped. -/
theorem create_misses
    {table : Word} {index : Fin 512} {path : List (Fin 512)}
    (found : s.nodeAt root path = some table)
    (inner : path.length + 1 < 4)
    (apart : ∀ frame, s.pmm.Fresh frame → ¬ index :: path <:+ tablePath frame)
    (created : create identity table index s = some next)
    (enough : next.nulls = s.nulls) :
    ¬ Found s next := by
  intro all
  obtain ⟨⟨new, allocated⟩, answered, rest⟩ :=
    Option.bind_eq_some_iff.mp created
  have later := advances new _ next rest
  have first := allocFrame_advances answered
  obtain ⟨taken, -, same⟩ :=
    allocFrame_taken answered (show allocated.nulls ≤ next.nulls from
      later.nulls_le) enough
  have fresh := Pmm.Fresh.of_taken taken
  have tables_eq : allocated.tables = s.tables := by rw [same]
  have cr3_eq : allocated.cr3 = root := first.cr3_eq.trans active
  have lost : reaches (clearBelow
      (RadixTree.write allocated.tables table index (new ||| userPtEntry))
      new 0) allocated.cr3 new = false := by
    rw [clearBelow_zero, cr3_eq, tables_eq, reaches,
      and_signMask_of_aligned tree.root_aligned rootLow,
      mmu_write_of_not_suffix tree found inner (apart new fresh), mmu_eq,
      unmapped new fresh]
    rfl
  have cleaned := all.within first later _ (hang_accesses ..) (new, false)
  rw [← lost] at cleaned
  have seen := cleaned (by
    simp only [List.mem_append, List.mem_map, List.mem_reverse, List.mem_range]
    exact Or.inl ⟨0, by decide, rfl⟩)
  rw [lost] at seen
  contradiction

theorem descend_misses
    {table child : Word} {index : Fin 512} {path : List (Fin 512)}
    (found : s.nodeAt root path = some table)
    (inner : path.length + 1 < 4)
    (missing : s.nodeAt root (index :: path) = none)
    (apart : ∀ frame, s.pmm.Fresh frame → ¬ index :: path <:+ tablePath frame)
    (descended : descend identity table index s = some (child, next))
    (enough : next.nulls = s.nulls) :
    ¬ Found s next := by
  intro all
  obtain ⟨middle, made, same⟩ := Option.map_eq_some_iff.mp descended
  obtain ⟨-, rfl⟩ := Prod.mk.inj same
  have absent : s.tables table index &&& 1#64 = 0#64 := by
    rwa [nodeAt_cons, found, Option.bind_some, next_eq_none_iff] at missing
  rw [ensure, if_pos absent] at made
  exact create_misses advances (tree.touch table) rootLow active unmapped
    found inner apart made enough
    (all.within (Advances.touch s table) (Advances.touch middle table))

end Missing

/-- A call for an address whose tables are not all there touches a table that
the processor does not find, if new tables are not mapped yet and do not share
the missing part of the address. -/
theorem mapAddr_misses
    {physical virtual flags : Word}
    (tree : s.Tree root)
    (rootLow : root.toNat < 2 ^ 52)
    (active : s.cr3 = root)
    (unmapped : ∀ frame, s.pmm.Fresh frame → s.leafAt root frame = 0#64)
    (shared : ∀ frame path, s.pmm.Fresh frame → path <:+ tablePath virtual →
      path <:+ tablePath frame → (s.nodeAt root path).isSome)
    (physical_ne : physical ≠ 0#64)
    (virtual_ne : virtual ≠ 0#64)
    (missing : s.nodeAt root (tablePath virtual) = none)
    (mapped : mapAddr physical virtual flags root s = some next)
    (enough : next.nulls = s.nulls) :
    ¬ Found s next := by
  rw [mapAddr, mapAddrFuel] at mapped
  have advances : ∀ table s next,
      mapAddrFuel (2 ^ 22 + 1) table table kernelPtEntry root s = some next →
        Advances s next := fun _ _ _ => Advances.closed.mapAddrFuel
  rcases mapAddrWith_cases mapped with ⟨null, -⟩ | ⟨-, walk⟩
  · exact absurd null (not_or.mpr ⟨physical_ne, virtual_ne⟩)
  obtain ⟨s1, s2, s3, p3Tbl, p2Tbl, p1Tbl, ⟨first, second, third⟩, rfl⟩ :=
    walk
  rw [← tablePath_alignAddr] at missing shared
  generalize alignAddr virtual = address at *
  have step1 := Advances.closed.descend advances first
  have step2 := Advances.closed.descend advances second
  have step3 := Advances.closed.descend advances third
  have write := Advances.store s3 p1Tbl (p1Entry address)
    (alignAddr physical ||| flags)
  have nulls1 := step1.nulls_le
  have nulls2 := step2.nulls_le
  have nulls3 := step3.nulls_le
  have nulls4 : s3.nulls = s.nulls := enough
  have apart : ∀ path, path <:+ tablePath address →
      s.nodeAt root path = none → ∀ frame, s.pmm.Fresh frame →
        ¬ path <:+ tablePath frame := by
    intro path towards absent frame fresh suffix
    have present := shared frame path fresh towards suffix
    rw [absent] at present
    contradiction
  intro all
  -- The first entry that is not present is the one that is made; the tables
  -- above it are only read.
  cases found1 : s.nodeAt root [p4Entry address] with
  | none =>
      exact descend_misses advances tree rootLow active unmapped rfl
        (by simp) found1 (apart _ ⟨[_, _], rfl⟩ found1) first (by omega)
        (all.within (Advances.refl s) (step2.trans (step3.trans write)))
  | some table =>
      obtain ⟨rfl, rfl⟩ := descend_reads first found1
      cases found2 : s.nodeAt root [p3Entry address, p4Entry address] with
      | none =>
          exact descend_misses advances ((tree.touch _).touch _) rootLow active
            unmapped found1 (by simp) found2 (apart _ ⟨[_], rfl⟩ found2)
            second (by omega) (all.within step1 (step3.trans write))
      | some child =>
          have points : tableLinks.next (s.tables p3Tbl (p3Entry address)) =
              some child := by
            rwa [nodeAt_cons, found1] at found2
          obtain ⟨rfl, rfl⟩ := descend_reads second points
          exact descend_misses advances
            ((((tree.touch _).touch _).touch _).touch _) rootLow active
            unmapped found2 (by simp) missing
            (apart _ List.suffix_rfl missing) third (by omega)
            (all.within (step1.trans step2) write)

end Machine
end PivotOs
