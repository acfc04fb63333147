import PivotOs.Paging.Grown

/-!
# `map_addr`

`map_addr` calls itself for every table it makes, before its own walk is done.
The induction is on the depth of that recursion.  Its invariant is `Grown`:
whatever the inner calls add, tables keep their places, so the outer walk
finds the entry it made and goes on from there.
-/

namespace PivotOs

open Paging

namespace Machine

variable {s next : Machine} {root : Word}

/-! ## Elementary steps -/

/-- Zeroing all words clears the table. -/
theorem clearBelow_full (tables : Tables) (table : Word) :
    clearBelow tables table 512 = RadixTree.clear tableLinks tables table := by
  funext other index
  simp [clearBelow, RadixTree.clear, index.isLt, tableLinks]

/-- Reading a table changes nothing but the log of accesses. -/
theorem touch_grown
    (tree : s.Tree root)
    (table : Word) (touched : Set Nat) :
    Grown root [] [] touched s (s.touch table) :=
  { Grown.refl tree with
    toAdvances := Advances.touch s table
    tree := { tree with } }

/-- Hang a new table into the tree.  It is not yet mapped itself. -/
theorem hang_grown
    {allocated : Machine}
    {table new address : Word} {index : Fin 512} {path : List (Fin 512)}
    (tree : s.Tree root)
    (marks : s.pmm.Marks)
    (found : s.nodeAt root path = some table)
    (inner : path.length + 1 < 4)
    (missing : s.nodeAt root (index :: path) = none)
    (towards : index :: path <:+ tablePath address)
    (answered : s.allocFrame = some (new, allocated))
    (taken : s.pmm.Taken new allocated.pmm)
    (same : allocated =
      { s with pmm := allocated.pmm, allocs := new :: s.allocs }) :
    Grown root [new] [new] {pageOf new, pageOf address} s
        (allocated.hang table index new) ∧
      (allocated.hang table index new).nodeAt root (index :: path) =
        some new := by
  have tables_eq : (allocated.hang table index new).tables =
      RadixTree.link tableLinks s.tables table index (new ||| userPtEntry)
        new := by
    rw [hang, cleanTable, clearBelow_full, same]
    rfl
  have allocs_eq : (allocated.hang table index new).allocs =
      new :: s.allocs := congrArg Machine.allocs same
  have advances := (allocFrame_advances answered).trans
    (Advances.hang allocated table index new)
  replace taken : s.pmm.Taken new (allocated.hang table index new).pmm := taken
  clear same answered
  generalize allocated.hang table index new = next at *
  have fresh := Pmm.Fresh.of_taken taken
  have points : tableLinks.next (new ||| userPtEntry) = some new :=
    next_or_flags fresh.aligned (lt_trans fresh.toNat_lt (by decide))
      (by decide) (by decide)
  have unseen : ¬ RadixTree.Member tableLinks s.tables root 4 new :=
    fun member => fresh.free.2 (tree.used new member)
  have hangs : RadixTree.Hangs tableLinks s.tables next.tables root 4
      (index :: path) new := by
    rw [tables_eq]
    exact RadixTree.link_hangs tree.distinct inner found missing points unseen
  have newUsed : next.pmm.Used (frameOf new) :=
    (taken.used_iff marks _).mpr (Or.inr rfl)
  refine ⟨?_, hangs.found⟩
  exact
    { toAdvances := advances
      allocs_eq := allocs_eq
      fresh := by simpa using fresh
      taken_used := by simpa using newUsed
      tables_taken := fun _ => id
      tree :=
        { distinct := hangs.distinct
          used := by
            intro other member
            rcases (hangs.member_iff other).mp member with old | rfl
            · exact taken.marked.used _ (tree.used other old)
            · exact newUsed
          root_aligned := tree.root_aligned
          root_ne_zero := tree.root_ne_zero }
      keeps := hangs.keeps
      reached := by
        intro way other short there
        rcases hangs.reached way other short there with old | here
        · exact Or.inl old
        · exact Or.inr ⟨address, Or.inl (by simp), here ▸ towards⟩
      isTable_iff := by
        intro other
        rw [List.mem_singleton]
        exact hangs.member_iff other
      leaf_table := by
        intro other member outside
        obtain rfl := List.mem_singleton.mp member
        exact absurd (Set.mem_insert _ _) outside
      leaf_other := fun _ _ _ => hangs.leaf_eq _ _ rfl }

/-- Write the last entry of an address. -/
theorem store_grown
    {table : Word} (address word : Word)
    (tree : s.Tree root)
    (found : s.nodeAt root (tablePath address) = some table) :
    Grown root [] [] {pageOf address} s
        (s.store table (p1Entry address) word) ∧
      (s.store table (p1Entry address) word).leafAt root address = word := by
  have deepest : (tablePath address).length + 1 = 4 := rfl
  have leaves : ∀ other,
      (s.store table (p1Entry address) word).leafAt root other =
        if pageOf other = pageOf address then word else s.leafAt root other := by
    intro other
    have written : (s.store table (p1Entry address) word).leafAt root other =
        if tablePath other = tablePath address ∧
            p1Entry other = p1Entry address then word
        else s.leafAt root other :=
      RadixTree.leafAt_write tree.distinct deepest found rfl
    have pages : tablePath other = tablePath address ∧
          p1Entry other = p1Entry address ↔
        pageOf other = pageOf address := by
      rw [← pagePath_eq_iff, pagePath, pagePath, List.cons.injEq, and_comm]
    simp only [written, pages]
  have nodes : ∀ way : List (Fin 512), way.length < 4 →
      (s.store table (p1Entry address) word).nodeAt root way =
        s.nodeAt root way := fun way short =>
    RadixTree.nodeAt_write tree.distinct deepest found way short
  have members : ∀ other,
      (s.store table (p1Entry address) word).IsTable root other ↔
        s.IsTable root other := fun other =>
    RadixTree.member_write_iff tree.distinct deepest found
  refine ⟨?_, by rw [leaves, if_pos rfl]⟩
  exact
    { toAdvances := Advances.store s table _ word
      allocs_eq := rfl
      fresh := by simp
      taken_used := by simp
      tables_taken := by simp
      tree :=
        { distinct := tree.distinct.write deepest found
          used := fun other member =>
            tree.used other ((members other).mp member)
          root_aligned := tree.root_aligned
          root_ne_zero := tree.root_ne_zero }
      keeps := by
        intro way other short old
        rw [nodes way short, old]
      reached := by
        intro way other short there
        exact Or.inl (nodes way short ▸ there)
      isTable_iff := by simpa using members
      leaf_table := by simp
      leaf_other := by
        intro other outside _
        rw [leaves, if_neg (by simpa using outside)] }

/-! ## The three levels of the walk -/

section Walk

variable {identity : Word → Machine → Option Machine}
variable {physical virtual flags p4Tbl : Word}

/-- The levels and tables of a walk through the body of `map_addr`. -/
structure Walked (identity : Word → Machine → Option Machine)
    (virtual p4Tbl : Word) (s s1 s2 s3 : Machine)
    (p3Tbl p2Tbl p1Tbl : Word) : Prop where
  /-- The first level. -/
  first : descend identity p4Tbl (p4Entry (alignAddr virtual)) s =
    some (p3Tbl, s1)
  /-- The second level. -/
  second : descend identity p3Tbl (p3Entry (alignAddr virtual)) s1 =
    some (p2Tbl, s2)
  /-- The third level. -/
  third : descend identity p2Tbl (p2Entry (alignAddr virtual)) s2 =
    some (p1Tbl, s3)

/-- `map_addr` does nothing for null, or walks three levels and writes one
entry. -/
theorem mapAddrWith_cases
    (mapped : mapAddrWith identity physical virtual flags p4Tbl s =
      some next) :
    (physical = 0#64 ∨ virtual = 0#64) ∧ next = s ∨
      (physical ≠ 0#64 ∧ virtual ≠ 0#64) ∧
        ∃ s1 s2 s3 p3Tbl p2Tbl p1Tbl,
          Walked identity virtual p4Tbl s s1 s2 s3 p3Tbl p2Tbl p1Tbl ∧
          next = s3.store p1Tbl (p1Entry (alignAddr virtual))
            (alignAddr physical ||| flags) := by
  rw [mapAddrWith] at mapped
  split at mapped
  · rename_i null
    exact Or.inl ⟨null, (Option.some.inj mapped).symm⟩
  · rename_i notNull
    obtain ⟨⟨p3Tbl, s1⟩, first, mapped⟩ := Option.bind_eq_some_iff.mp mapped
    obtain ⟨⟨p2Tbl, s2⟩, second, mapped⟩ := Option.bind_eq_some_iff.mp mapped
    obtain ⟨⟨p1Tbl, s3⟩, third, mapped⟩ := Option.bind_eq_some_iff.mp mapped
    exact Or.inr ⟨not_or.mp notNull, s1, s2, s3, p3Tbl, p2Tbl, p1Tbl,
      ⟨first, second, third⟩, (Option.some.inj mapped).symm⟩

theorem mapAddrWith_of_walked
    {s1 s2 s3 : Machine} {p3Tbl p2Tbl p1Tbl : Word}
    (physical_ne : physical ≠ 0#64)
    (virtual_ne : virtual ≠ 0#64)
    (walked : Walked identity virtual p4Tbl s s1 s2 s3 p3Tbl p2Tbl p1Tbl) :
    mapAddrWith identity physical virtual flags p4Tbl s =
      some (s3.store p1Tbl (p1Entry (alignAddr virtual))
        (alignAddr physical ||| flags)) := by
  rw [mapAddrWith, if_neg (not_or.mpr ⟨physical_ne, virtual_ne⟩)]
  simp only [walked.first, walked.second, walked.third, Option.bind_eq_bind,
    Option.bind_some, Option.pure_def]

end Walk

/-- `map_addr` does nothing for null. -/
theorem mapAddrFuel_null
    {physical virtual : Word} (flags p4Tbl : Word) (fuel : Nat) (s : Machine)
    (null : physical = 0#64 ∨ virtual = 0#64) :
    mapAddrFuel (fuel + 1) physical virtual flags p4Tbl s = some s := by
  rw [mapAddrFuel, mapAddrWith, if_pos null]

theorem mapAddr_null
    {physical virtual : Word} (flags p4Tbl : Word) (s : Machine)
    (null : physical = 0#64 ∨ virtual = 0#64) :
    mapAddr physical virtual flags p4Tbl s = some s :=
  mapAddrFuel_null flags p4Tbl _ s null

/-! ## What every run does -/

/-- A relation between machines that composes and holds across the elementary
steps of `map_addr`. -/
structure StepClosed (R : Machine → Machine → Prop) : Prop where
  refl : ∀ s, R s s
  trans : ∀ {s next last}, R s next → R next last → R s last
  touch : ∀ s table, R s (s.touch table)
  store : ∀ s table index word, R s (s.store table index word)
  hang : ∀ s table index new, R s (s.hang table index new)
  alloc : ∀ {s next frame}, s.allocFrame = some (frame, next) → R s next

namespace StepClosed

variable {R : Machine → Machine → Prop}

section Identity

variable {identity : Word → Machine → Option Machine}
variable
  (closed : StepClosed R)
  (inner : ∀ table s next, identity table s = some next → R s next)

include closed inner

theorem create
    {table : Word} {index : Fin 512}
    (created : Machine.create identity table index s = some next) :
    R s next := by
  obtain ⟨⟨new, allocated⟩, answered, rest⟩ :=
    Option.bind_eq_some_iff.mp created
  apply closed.trans (closed.alloc answered)
  apply closed.trans (closed.hang allocated table index new)
  exact inner new _ next rest

theorem descend
    {table child : Word} {index : Fin 512}
    (descended : Machine.descend identity table index s = some (child, next)) :
    R s next := by
  have read := fun t : Machine => closed.touch t table
  obtain ⟨middle, made, same⟩ := Option.map_eq_some_iff.mp descended
  obtain ⟨rfl, rfl⟩ := Prod.mk.inj same
  rw [ensure] at made
  split at made
  · apply closed.trans (read s)
    apply closed.trans (closed.create inner made)
    exact read middle
  · obtain rfl := Option.some.inj made
    exact closed.trans (read s) (read _)

theorem mapAddrWith
    {physical virtual flags p4Tbl : Word}
    (mapped : Machine.mapAddrWith identity physical virtual flags p4Tbl s =
      some next) :
    R s next := by
  rcases mapAddrWith_cases mapped with ⟨-, rfl⟩ | ⟨-, walk⟩
  · exact closed.refl _
  · obtain ⟨s1, s2, s3, p3Tbl, p2Tbl, p1Tbl, walked, rfl⟩ := walk
    apply closed.trans (closed.descend inner walked.first)
    apply closed.trans (closed.descend inner walked.second)
    apply closed.trans (closed.descend inner walked.third)
    exact closed.store s3 p1Tbl _ _

end Identity

theorem mapAddrFuel
    {fuel : Nat} {physical virtual flags p4Tbl : Word}
    (closed : StepClosed R)
    (mapped : Machine.mapAddrFuel fuel physical virtual flags p4Tbl s =
      some next) :
    R s next := by
  induction fuel generalizing physical virtual flags s next with
  | zero => contradiction
  | succ fuel inductionHypothesis =>
      exact closed.mapAddrWith
        (fun _ _ _ called => inductionHypothesis called) mapped

/-- What holds across the elementary steps holds across `map_addr`. -/
theorem mapAddr
    {physical virtual flags p4Tbl : Word}
    (closed : StepClosed R)
    (mapped : Machine.mapAddr physical virtual flags p4Tbl s = some next) :
    R s next :=
  closed.mapAddrFuel mapped

end StepClosed

theorem Advances.closed : StepClosed Advances where
  refl := Advances.refl
  trans := Advances.trans
  touch := Advances.touch
  store := Advances.store
  hang := Advances.hang
  alloc := allocFrame_advances

theorem mapAddr_advances
    {physical virtual flags p4Tbl : Word}
    (mapped : mapAddr physical virtual flags p4Tbl s = some next) :
    Advances s next :=
  Advances.closed.mapAddr mapped

/-! ## That every run ends -/

/-- The bitmap has rows that the row counter can reach, its clear bits can be
set, and fewer than `bound` of them are left. -/
structure Room (bound : Nat) (s : Machine) : Prop where
  /-- The search ends. -/
  short : s.pmm.bitmapEntries < 2 ^ 16
  /-- A frame that is found is marked. -/
  marks : s.pmm.Marks
  /-- Few frames are left. -/
  few : s.pmm.freeCount < bound

theorem Room.advances
    {bound : Nat}
    (room : Room bound s)
    (advances : Advances s next) :
    Room bound next where
  short := lt_of_eq_of_lt advances.marked.entries_eq room.short
  marks := advances.marked.marks room.marks
  few := lt_of_le_of_lt advances.marked.freeCount_le room.few

section Returning

variable {identity : Word → Machine → Option Machine} {bound : Nat}
variable
  (advances : ∀ table s next, identity table s = some next → Advances s next)
  (null : ∀ s, (identity 0#64 s).isSome)
  (returns : ∀ table s, Room bound s → (identity table s).isSome)

include null returns

/-- A table is made for null, which ends the recursion, or from a frame that
is no longer free. -/
theorem create_isSome
    (room : Room (bound + 1) s)
    (table : Word) (index : Fin 512) :
    (create identity table index s).isSome := by
  obtain ⟨answer, answered⟩ :=
    Option.isSome_iff_exists.mp (Pmm.allocFrame_isSome room.short)
  have allocated : s.allocFrame = some (answer.1,
      { s with pmm := answer.2, allocs := answer.1 :: s.allocs }) := by
    rw [allocFrame, answered]
    rfl
  have later := room.advances (allocFrame_advances allocated)
  rw [create, allocated, Option.bind_some]
  rcases allocFrame_cases allocated with ⟨isNull, -, -⟩ | ⟨taken, -, -⟩
  · rw [isNull]
    exact null _
  · have fewer := taken.freeCount_lt room.marks
    exact returns _ _ ⟨later.short, later.marks,
      lt_of_lt_of_le fewer (Nat.le_of_lt_succ room.few)⟩

theorem descend_isSome
    (room : Room (bound + 1) s)
    (table : Word) (index : Fin 512) :
    (descend identity table index s).isSome := by
  rw [descend, Option.isSome_map, ensure]
  split
  · have touched : Room (bound + 1) (s.touch table) :=
      ⟨room.short, room.marks, room.few⟩
    exact create_isSome null returns touched table index
  · rfl

include advances

theorem mapAddrWith_isSome
    (room : Room (bound + 1) s)
    (physical virtual flags p4Tbl : Word) :
    (mapAddrWith identity physical virtual flags p4Tbl s).isSome := by
  by_cases isNull : physical = 0#64 ∨ virtual = 0#64
  · rw [mapAddrWith, if_pos isNull]
    rfl
  · rw [not_or] at isNull
    obtain ⟨⟨p3Tbl, s1⟩, first⟩ := Option.isSome_iff_exists.mp
      (descend_isSome null returns room p4Tbl (p4Entry (alignAddr virtual)))
    have room1 := room.advances (Advances.closed.descend advances first)
    obtain ⟨⟨p2Tbl, s2⟩, second⟩ := Option.isSome_iff_exists.mp
      (descend_isSome null returns room1 p3Tbl (p3Entry (alignAddr virtual)))
    have room2 := room1.advances (Advances.closed.descend advances second)
    obtain ⟨⟨p1Tbl, s3⟩, third⟩ := Option.isSome_iff_exists.mp
      (descend_isSome null returns room2 p2Tbl (p2Entry (alignAddr virtual)))
    rw [mapAddrWith_of_walked isNull.1 isNull.2 ⟨first, second, third⟩]
    rfl

end Returning

/-- With a frame to spare for every level of the recursion, `map_addr`
returns. -/
theorem mapAddrFuel_isSome
    {fuel : Nat}
    (room : Room (fuel + 1) s)
    (physical virtual flags p4Tbl : Word) :
    (mapAddrFuel (fuel + 2) physical virtual flags p4Tbl s).isSome := by
  induction fuel generalizing physical virtual flags s with
  | zero =>
      refine mapAddrWith_isSome ?_ ?_ ?_ room physical virtual flags p4Tbl
      · exact fun _ _ _ inner => Advances.closed.mapAddrFuel inner
      · intro t
        rw [mapAddrFuel_null _ _ _ _ (Or.inl rfl)]
        rfl
      · intro table t noRoom
        exact absurd noRoom.few (Nat.not_lt_zero _)
  | succ fuel inductionHypothesis =>
      refine mapAddrWith_isSome ?_ ?_ ?_ room physical virtual flags p4Tbl
      · exact fun _ _ _ inner => Advances.closed.mapAddrFuel inner
      · intro t
        rw [mapAddrFuel_null _ _ _ _ (Or.inl rfl)]
        rfl
      · exact fun table t enough => inductionHypothesis enough _ _ _

/-- `map_addr` returns: every frame it takes leaves one fewer. -/
theorem mapAddr_isSome
    (short : s.pmm.bitmapEntries < 2 ^ 16)
    (marks : s.pmm.Marks)
    (physical virtual flags p4Tbl : Word) :
    (mapAddr physical virtual flags p4Tbl s).isSome :=
  mapAddrFuel_isSome
    ⟨short, marks, Nat.lt_succ_of_le s.pmm.freeCount_le⟩ _ _ _ _

/-! ## What a run with enough frames does -/

/-- The promise of a call of `map_addr` that never runs out of frames. -/
def Maps (root physical virtual flags : Word) (s next : Machine) : Prop :=
  ∃ tables, Grown root tables tables {pageOf virtual} s next ∧
    next.leafAt root virtual = alignAddr physical ||| flags ∧
    (next.nodeAt root (tablePath virtual)).isSome

section Growing

variable {identity : Word → Machine → Option Machine}
variable
  (advances : ∀ table s next, identity table s = some next → Advances s next)
  (maps : ∀ table s next, s.Tree root → s.pmm.Marks → table ≠ 0#64 →
    identity table s = some next → next.nulls = s.nulls →
      Maps root table table kernelPtEntry s next)

include advances

/-- A new table is taken and hung into the tree before it gets a mapping. -/
theorem create_hangs
    {table address : Word} {index : Fin 512} {path : List (Fin 512)}
    (tree : s.Tree root)
    (marks : s.pmm.Marks)
    (found : s.nodeAt root path = some table)
    (inner : path.length + 1 < 4)
    (missing : s.nodeAt root (index :: path) = none)
    (towards : index :: path <:+ tablePath address)
    (created : create identity table index s = some next)
    (enough : next.nulls = s.nulls) :
    ∃ new, ∃ allocated : Machine, s.pmm.Taken new allocated.pmm ∧
      allocated.tables = s.tables ∧
      Grown root [new] [new] {pageOf new, pageOf address} s
        (allocated.hang table index new) ∧
      (allocated.hang table index new).nodeAt root (index :: path) =
        some new ∧
      identity new (allocated.hang table index new) = some next ∧
      next.nulls = (allocated.hang table index new).nulls := by
  obtain ⟨⟨new, allocated⟩, answered, rest⟩ :=
    Option.bind_eq_some_iff.mp created
  have later : allocated.nulls ≤ next.nulls :=
    (advances new _ next rest).nulls_le
  obtain ⟨taken, -, same⟩ := allocFrame_taken answered later enough
  obtain ⟨hung, placed⟩ := hang_grown tree marks found inner missing towards
    answered taken same
  have tables_eq : allocated.tables = s.tables := by rw [same]
  exact ⟨new, allocated, taken, tables_eq, hung, placed, rest,
    enough.trans hung.nulls_eq.symm⟩

include maps

/-- A new table is hung into the tree and mapped at its own address. -/
theorem create_grown
    {table address : Word} {index : Fin 512} {path : List (Fin 512)}
    (tree : s.Tree root)
    (marks : s.pmm.Marks)
    (found : s.nodeAt root path = some table)
    (inner : path.length + 1 < 4)
    (missing : s.nodeAt root (index :: path) = none)
    (towards : index :: path <:+ tablePath address)
    (created : create identity table index s = some next)
    (enough : next.nulls = s.nulls) :
    ∃ tables, Grown root tables tables {pageOf address} s next ∧
      (next.nodeAt root (index :: path)).isSome := by
  obtain ⟨new, allocated, taken, -, hung, placed, rest, nulls⟩ :=
    create_hangs advances tree marks found inner missing towards created enough
  obtain ⟨tables, grown, leaf, -⟩ := maps new _ next hung.tree
    (hung.marks marks) taken.ne_zero rest nulls
  have both := hung.trans (grown.mono (by simp))
  rw [alignAddr_of_aligned taken.aligned] at leaf
  refine ⟨tables ++ [new], both.settle (by simp) leaf, ?_⟩
  rw [grown.keeps (index :: path) new inner placed]
  rfl

/-- One level of the walk ends at the table of its entry. -/
theorem descend_grown
    {table child address : Word} {index : Fin 512} {path : List (Fin 512)}
    (tree : s.Tree root)
    (marks : s.pmm.Marks)
    (found : s.nodeAt root path = some table)
    (inner : path.length + 1 < 4)
    (towards : index :: path <:+ tablePath address)
    (descended : descend identity table index s = some (child, next))
    (enough : next.nulls = s.nulls) :
    ∃ tables, Grown root tables tables {pageOf address} s next ∧
      next.nodeAt root (index :: path) = some child := by
  obtain ⟨middle, made, same⟩ := Option.map_eq_some_iff.mp descended
  obtain ⟨rfl, rfl⟩ := Prod.mk.inj same
  -- Whichever way the entry became present, its table is where it points.
  have ends : ∀ {tables}, Grown root tables tables {pageOf address} s middle →
      (middle.nodeAt root (index :: path)).isSome →
      ∃ tables, Grown root tables tables {pageOf address} s
          (middle.touch table) ∧
        (middle.touch table).nodeAt root (index :: path) =
          some (middle.tables table index &&& signMask) := by
    intro tables grown present
    obtain ⟨child, placed⟩ := Option.isSome_iff_exists.mp present
    refine ⟨tables, grown.trans (touch_grown grown.tree table _), ?_⟩
    have kept := grown.keeps path table (by omega) found
    have points : tableLinks.next (middle.tables table index) = some child := by
      rw [← placed, nodeAt_cons, kept, Option.bind_some]
    rw [next_eq_some points]
    exact placed
  have read := touch_grown tree table {pageOf address}
  rw [ensure] at made
  split at made
  · rename_i absent
    have missing : s.nodeAt root (index :: path) = none := by
      rw [nodeAt_cons, found, Option.bind_some, next_eq_none_iff.mpr absent]
    obtain ⟨tables, grown, present⟩ := create_grown advances maps read.tree
      marks found inner missing towards made enough
    have both := read.trans grown
    rw [List.append_nil] at both
    exact ends both present
  · rename_i present
    obtain rfl := Option.some.inj made
    refine ends read ?_
    rw [Option.isSome_iff_ne_none]
    intro missing
    have kept := read.keeps path table (by omega) found
    rw [nodeAt_cons, kept, Option.bind_some, next_eq_none_iff] at missing
    exact present missing

theorem mapAddrWith_maps
    {physical virtual flags : Word}
    (tree : s.Tree root)
    (marks : s.pmm.Marks)
    (physical_ne : physical ≠ 0#64)
    (virtual_ne : virtual ≠ 0#64)
    (mapped : mapAddrWith identity physical virtual flags root s = some next)
    (enough : next.nulls = s.nulls) :
    Maps root physical virtual flags s next := by
  rcases mapAddrWith_cases mapped with ⟨null, -⟩ | ⟨-, walk⟩
  · exact absurd null (not_or.mpr ⟨physical_ne, virtual_ne⟩)
  · obtain ⟨s1, s2, s3, p3Tbl, p2Tbl, p1Tbl, walked, written⟩ := walk
    have nulls1 := (Advances.closed.descend advances walked.first).nulls_le
    have nulls2 := (Advances.closed.descend advances walked.second).nulls_le
    have nulls3 := (Advances.closed.descend advances walked.third).nulls_le
    have nulls4 : s3.nulls = next.nulls := by rw [written]; rfl
    have path := tablePath_alignAddr virtual
    have found0 : s.nodeAt root [] = some root := rfl
    obtain ⟨tables1, grown1, found1⟩ := descend_grown advances maps tree
      marks found0 (by simp)
      (show [p4Entry (alignAddr virtual)] <:+ tablePath virtual from
        path ▸ ⟨[p2Entry _, p3Entry _], rfl⟩) walked.first (by omega)
    obtain ⟨tables2, grown2, found2⟩ := descend_grown advances maps
      grown1.tree (grown1.marks marks) found1 (by simp)
      (show [p3Entry (alignAddr virtual), p4Entry (alignAddr virtual)] <:+
        tablePath virtual from path ▸ ⟨[p2Entry _], rfl⟩) walked.second
      (by omega)
    obtain ⟨tables3, grown3, found3⟩ := descend_grown advances maps
      grown2.tree (grown2.marks (grown1.marks marks)) found2 (by simp)
      (show tablePath (alignAddr virtual) <:+ tablePath virtual from
        path ▸ List.suffix_rfl) walked.third (by omega)
    obtain ⟨grown4, leaf⟩ := store_grown (alignAddr virtual)
      (alignAddr physical ||| flags) grown3.tree found3
    rw [pageOf_alignAddr] at grown4
    rw [written]
    refine ⟨tables3 ++ (tables2 ++ tables1), ?_, ?_, ?_⟩
    · exact ((grown1.trans grown2).trans grown3).trans grown4
    · exact (leafAt_eq_of_pageOf_eq (pageOf_alignAddr virtual).symm).trans leaf
    · have kept := grown4.keeps (tablePath (alignAddr virtual)) p1Tbl
        (by simp [tablePath]) found3
      rw [← path, kept]
      rfl

end Growing

theorem mapAddrFuel_maps
    {fuel : Nat} {physical virtual flags : Word}
    (tree : s.Tree root)
    (marks : s.pmm.Marks)
    (physical_ne : physical ≠ 0#64)
    (virtual_ne : virtual ≠ 0#64)
    (mapped : mapAddrFuel fuel physical virtual flags root s = some next)
    (enough : next.nulls = s.nulls) :
    Maps root physical virtual flags s next := by
  induction fuel generalizing physical virtual flags s next with
  | zero => contradiction
  | succ fuel inductionHypothesis =>
      refine mapAddrWith_maps (fun _ _ _ => Advances.closed.mapAddrFuel) ?_ tree
        marks physical_ne virtual_ne mapped enough
      intro table t tNext tTree tMarks table_ne
      exact inductionHypothesis tTree tMarks table_ne table_ne

/-- A call of `map_addr` that never runs out of frames maps its page and
nothing else but the tables it makes. -/
theorem mapAddr_maps
    {physical virtual flags : Word}
    (tree : s.Tree root)
    (marks : s.pmm.Marks)
    (physical_ne : physical ≠ 0#64)
    (virtual_ne : virtual ≠ 0#64)
    (mapped : mapAddr physical virtual flags root s = some next)
    (enough : next.nulls = s.nulls) :
    Maps root physical virtual flags s next :=
  mapAddrFuel_maps tree marks physical_ne virtual_ne mapped enough

/-! ## Translations after `map_addr` -/

namespace Maps

variable {physical virtual flags : Word}

theorem translateAddr_self
    (maps : Maps root physical virtual flags s next)
    (flagsSmall : flags.toNat < 4096) :
    next.translateAddr virtual root = alignAddr physical &&& signMask := by
  obtain ⟨tables, grown, leaf, -⟩ := maps
  have aligned : (alignAddr physical).toNat % 4096 = 0 := by
    rw [alignAddr_toNat]
    omega
  rw [translateAddr_eq virtual grown.tree.root_ne_zero, leaf,
    or_flags_and_signMask aligned flagsSmall]

end Maps

namespace Grown

variable {taken tables : List Word} {touched : Set Nat}

theorem translateAddr_table
    (grown : Grown root taken tables touched s next)
    {table : Word}
    (member : table ∈ tables)
    (outside : pageOf table ∉ touched) :
    next.translateAddr table root = table := by
  have fresh := grown.fresh table (grown.tables_taken table member)
  rw [translateAddr_eq table grown.tree.root_ne_zero,
    grown.leaf_table table member outside,
    or_flags_and_signMask fresh.aligned (by decide),
    and_signMask_of_aligned fresh.aligned
      (lt_trans fresh.toNat_lt (by decide))]

theorem translateAddr_other
    (grown : Grown root taken tables touched s next)
    {address : Word}
    (outside : pageOf address ∉ touched)
    (different : ∀ table ∈ tables, pageOf address ≠ pageOf table) :
    next.translateAddr address root = s.translateAddr address root := by
  rw [translateAddr_eq address grown.tree.root_ne_zero,
    translateAddr_eq address grown.tree.root_ne_zero,
    grown.leaf_other address outside different]

end Grown

/-- `map_addr` on a well-formed tree returns.  When it never runs out of
frames, the tree stays well formed, the address translates to the physical
page, the tables made translate to themselves, and every other page translates
as before. -/
theorem mapAddr_correct
    (s : Machine) (root physical virtual flags : Word)
    (tree : s.Tree root)
    (marks : s.pmm.Marks)
    (physical_ne : physical ≠ 0#64)
    (virtual_ne : virtual ≠ 0#64)
    (flagsSmall : flags.toNat < 4096) :
    (s.pmm.bitmapEntries < 2 ^ 16 →
      (mapAddr physical virtual flags root s).isSome) ∧
    ∀ next, mapAddr physical virtual flags root s = some next →
      next.nulls = s.nulls →
        next.Tree root ∧
        next.translateAddr virtual root = alignAddr physical &&& signMask ∧
        ∃ tables, next.allocs = tables ++ s.allocs ∧
          (∀ table,
            next.IsTable root table ↔ s.IsTable root table ∨ table ∈ tables) ∧
          (∀ table ∈ tables, pageOf table ≠ pageOf virtual →
            next.translateAddr table root = table) ∧
          ∀ address, pageOf address ≠ pageOf virtual →
            (∀ table ∈ tables, pageOf address ≠ pageOf table) →
              next.translateAddr address root =
                s.translateAddr address root := by
  refine ⟨fun short => mapAddr_isSome short marks _ _ _ _, ?_⟩
  intro next mapped enough
  have maps := mapAddr_maps tree marks physical_ne virtual_ne mapped enough
  have self := maps.translateAddr_self flagsSmall
  obtain ⟨tables, grown, -⟩ := maps
  refine ⟨grown.tree, self, tables, grown.allocs_eq, grown.isTable_iff, ?_, ?_⟩
  · intro table member outside
    exact grown.translateAddr_table member (by simpa using outside)
  · intro address outside
    exact grown.translateAddr_other (by simpa using outside)

/-- A cleared root in frame 1; frame 2 is in use and the frames 3 to 63 are
free. -/
def sampleMachine : Machine where
  tables := fun _ _ => 0#64
  pmm :=
    { bitmap := fun row => if row = 0 then 0b111#64 else 0#64
      bitmapEntries := 1
      memPages := 64 }
  pml4 := 0x1000#64
  cr3 := 0x1000#64
  allocs := []
  accesses := []

theorem sampleMachine_marks : sampleMachine.pmm.Marks := by
  rintro k ⟨row, -⟩
  change k / 64 < 1 at row
  change k ≤ 64
  omega

/-- A root whose words are all zero is a tree. -/
theorem Tree.of_cleared
    (cleared : ∀ index, s.tables root index = 0#64)
    (used : s.pmm.Used (frameOf root))
    (aligned : root.toNat % 4096 = 0)
    (notNull : root ≠ 0#64) :
    s.Tree root where
  distinct := RadixTree.Distinct.of_cleared cleared
  used := by
    intro table isTable
    rwa [RadixTree.member_of_cleared cleared isTable]
  root_aligned := aligned
  root_ne_zero := notNull

/-- The cleaned root is a tree of one table. -/
theorem cleanTable_tree
    {allocated : Machine}
    (marks : s.pmm.Marks)
    (taken : s.pmm.Taken root allocated.pmm) :
    (∀ index, (allocated.cleanTable root).tables root index = 0#64) ∧
      (allocated.cleanTable root).Tree root := by
  have cleared : ∀ index,
      (allocated.cleanTable root).tables root index = 0#64 := by
    intro index
    simp [cleanTable, clearBelow, index.isLt]
  refine ⟨cleared, Tree.of_cleared cleared ?_ taken.aligned taken.ne_zero⟩
  exact (taken.used_iff marks _).mpr (Or.inr rfl)

theorem sampleMachine_tree : sampleMachine.Tree 0x1000#64 :=
  Tree.of_cleared (fun _ => rfl) (by decide) (by decide) (by decide)

theorem mapAddr_correct_sample :
    ∃ next, mapAddr 0x2000#64 0xFFFF800000001000#64 3#64 0x1000#64
        sampleMachine = some next ∧
      next.nulls = sampleMachine.nulls ∧
      next.Tree 0x1000#64 ∧
      next.translateAddr 0xFFFF800000001000#64 0x1000#64 = 0x2000#64 := by
  have ran : (mapAddr 0x2000#64 0xFFFF800000001000#64 3#64 0x1000#64
      sampleMachine).map nulls = some 0 := by decide +kernel
  obtain ⟨next, mapped, noNull⟩ := Option.map_eq_some_iff.mp ran
  obtain ⟨-, correct⟩ := mapAddr_correct sampleMachine 0x1000#64 0x2000#64
    0xFFFF800000001000#64 3#64 sampleMachine_tree sampleMachine_marks
    (by decide) (by decide) (by decide)
  obtain ⟨tree, translated, -⟩ := correct next mapped noNull
  exact ⟨next, mapped, noNull, tree, translated⟩

end Machine
end PivotOs
