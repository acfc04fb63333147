import PivotOs.Pmm.Defs
import PivotOs.Library.RadixTree

/-!
# Page tables

The page-table half of `mem/pmm.c`.  A table is the frame at its physical
address, which is where the kernel reads and writes it; the store gives the
512 words of every frame that is used as a table.  `Machine` is what these
functions share: the tables, the frame bitmap, the root that `kinfo` names and
the root in `cr3`.  Two logs are kept beside it for the statements about runs:
the answers of `alloc_frame`, newest first, and the tables touched, each with
whether the processor would have found it at its own address at that moment.
-/

namespace PivotOs

/-- The words of the tables, by physical address and index. -/
abbrev Tables := Word → Fin 512 → Word

namespace Paging

/-- An entry points to a table when its present bit is set. -/
def tableLinks : RadixTree.Links Word Word where
  next := fun entry =>
    if entry &&& 1#64 = 0#64 then none else some (entry &&& signMask)
  blank := 0#64
  next_blank := by decide

/-- The path to the last table of an address, last index first. -/
def tablePath (address : Word) : List (Fin 512) :=
  [p2Entry address, p3Entry address, p4Entry address]

/-- The path to the entry of an address, last index first. -/
def pagePath (address : Word) : List (Fin 512) :=
  p1Entry address :: tablePath address

/-- The frame at which the processor finds an address: all four entries must
be present. -/
def mmu (tables : Tables) (root address : Word) : Option Word :=
  RadixTree.nodeAt tableLinks tables root (pagePath address)

end Paging

/-- The state that paging works on. -/
structure Machine where
  /-- The page tables. -/
  tables : Tables
  /-- `kinfo.mem`, as far as the frame bitmap goes. -/
  pmm : Pmm
  /-- `KMEM.pml4`. -/
  pml4 : Word
  /-- The root the processor walks from. -/
  cr3 : Word
  /-- The answers of `alloc_frame`, newest first. -/
  allocs : List Word
  /-- The tables read or written, newest first, and whether the processor
  found each at its own address. -/
  accesses : List (Word × Bool)

namespace Machine

/-- How many calls of `alloc_frame` returned null. -/
def nulls (s : Machine) : Nat := s.allocs.count 0#64

/-- Whether the processor finds a table at its own address. -/
def reaches (tables : Tables) (cr3 table : Word) : Bool :=
  Paging.mmu tables (cr3 &&& signMask) table == some table

/-- Record that a table is about to be read or written. -/
def touch (s : Machine) (table : Word) : Machine :=
  { s with accesses := (table, reaches s.tables s.cr3 table) :: s.accesses }

/-- Store one word of a table. -/
def store (s : Machine) (table : Word) (index : Fin 512) (word : Word) :
    Machine :=
  { s.touch table with tables := RadixTree.write s.tables table index word }

/-- A table whose words below `count` are zero. -/
def clearBelow (tables : Tables) (table : Word) (count : Nat) : Tables :=
  fun other index =>
    if other = table ∧ index.val < count then 0#64 else tables other index

/-- `clean_table`.  When word `i` is stored, the words before it are zero
already. -/
def cleanTable (s : Machine) (table : Word) : Machine :=
  { s with
    tables := clearBelow s.tables table 512
    accesses := (List.range 512).reverse.map (fun i =>
      (table, reaches (clearBelow s.tables table i) s.cr3 table)) ++
        s.accesses }

/-- `alloc_frame`, with its answer logged; `none` when it does not return. -/
def allocFrame (s : Machine) : Option (Word × Machine) :=
  s.pmm.allocFrame.map fun result =>
    (result.1, { s with pmm := result.2, allocs := result.1 :: s.allocs })

/-- Point an entry at a new table and clean the table. -/
def hang (s : Machine) (table : Word) (index : Fin 512) (new : Word) :
    Machine :=
  (s.store table index (new ||| userPtEntry)).cleanTable new

/-- The body of the three tests of `map_addr`: put a new table at an entry
and map it at its own address. -/
def create (identity : Word → Machine → Option Machine) (table : Word)
    (index : Fin 512) (s : Machine) : Option Machine :=
  s.allocFrame.bind fun result =>
    identity result.1 (result.2.hang table index result.1)

/-- One of the three tests of `map_addr`: make the table of an entry that is
not present. -/
def ensure (identity : Word → Machine → Option Machine) (table : Word)
    (index : Fin 512) (s : Machine) : Option Machine :=
  if s.tables table index &&& 1#64 = 0#64 then
    create identity table index (s.touch table)
  else some (s.touch table)

/-- One level of `map_addr`: the table that an entry points to, made first
when the entry is not present. -/
def descend (identity : Word → Machine → Option Machine) (table : Word)
    (index : Fin 512) (s : Machine) : Option (Word × Machine) :=
  (ensure identity table index s).map fun s =>
    (s.tables table index &&& signMask, s.touch table)

/-- The body of `map_addr`, with `identity` for the call that maps a new table
at its own address. -/
def mapAddrWith (identity : Word → Machine → Option Machine)
    (physical virtual flags p4Tbl : Word) (s : Machine) : Option Machine :=
  if physical = 0#64 ∨ virtual = 0#64 then some s
  else do
    let physical := alignAddr physical
    let virtual := alignAddr virtual
    let (p3Tbl, s) ← descend identity p4Tbl (p4Entry virtual) s
    let (p2Tbl, s) ← descend identity p3Tbl (p3Entry virtual) s
    let (p1Tbl, s) ← descend identity p2Tbl (p2Entry virtual) s
    return s.store p1Tbl (p1Entry virtual) (physical ||| flags)

/-- `map_addr`, with a bound on the depth of its recursion. -/
def mapAddrFuel :
    (fuel : Nat) → (physical virtual flags p4Tbl : Word) → Machine →
      Option Machine
  | 0, _, _, _, _, _ => none
  | fuel + 1, physical, virtual, flags, p4Tbl, s =>
      mapAddrWith (fun table => mapAddrFuel fuel table table kernelPtEntry p4Tbl)
        physical virtual flags p4Tbl s

/-- `map_addr`.  Every call it makes of itself is on a frame that it has just
taken, and `alloc_frame` hands out at most `2 ^ 22` of them. -/
def mapAddr (physical virtual flags p4Tbl : Word) (s : Machine) :
    Option Machine :=
  mapAddrFuel (2 ^ 22 + 2) physical virtual flags p4Tbl s

/-- `translate_addr`. -/
def translateAddr (s : Machine) (virtual p4Tbl : Word) : Word :=
  let p4Tbl := if p4Tbl = 0#64 then s.pml4 else p4Tbl
  let virtual := alignAddr virtual
  let p4 := s.tables p4Tbl (p4Entry virtual)
  if p4 &&& 1#64 = 0#64 then 0#64
  else
    let p3 := s.tables (p4 &&& signMask) (p3Entry virtual)
    if p3 &&& 1#64 = 0#64 then 0#64
    else
      let p2 := s.tables (p3 &&& signMask) (p2Entry virtual)
      if p2 &&& 1#64 = 0#64 then 0#64
      else s.tables (p2 &&& signMask) (p1Entry virtual) &&& signMask

/-- `map_range`: the first `count` rounds of its loop. -/
def mapRange (physical virtual flags p4Tbl : Word) :
    (count : Nat) → Machine → Option Machine
  | 0, s => some s
  | count + 1, s => do
      let s ← mapRange physical virtual flags p4Tbl count s
      mapAddr (Pmm.pageAddress physical count) (Pmm.pageAddress virtual count)
        flags p4Tbl s

/-- `load_cr3`. -/
def loadCr3 (s : Machine) (root : Word) : Machine :=
  { s with cr3 := root }

end Machine
end PivotOs
