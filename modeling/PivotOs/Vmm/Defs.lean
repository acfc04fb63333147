import PivotOs.Paging.Defs
import PivotOs.Bitmap.Defs

/-!
# The virtual memory manager

`mem/vmm.c` hands out pages of a window of the address space.  A block bitmap
at the start of the window says which pages are taken, and every page handed
out is mapped to a frame of its own.  `Space` is what the functions work on:
the machine, the bytes of the window and the `vmm_t` record.  The bytes are
kept apart from the page tables, since the frames of the bitmap are never
tables.
-/

namespace PivotOs

/-- `vmm_level_t`. -/
inductive VmmLevel
  | supervisor
  | user
  deriving DecidableEq

/-- `vmm_t`. -/
structure Vmm where
  /-- `flags`. -/
  flags : Word
  /-- `p4_tbl`. -/
  p4Tbl : Word
  /-- `bm`. -/
  bm : Bitmap

/-- The machine, the bytes by virtual address, and the `vmm_t` record. -/
structure Space where
  /-- Page tables and frames. -/
  machine : Machine
  /-- The bytes of the window. -/
  mem : Memory
  /-- The record. -/
  vi : Vmm

namespace Machine

/-- The loop that `init_vmm` and `valloc` share: its first `count` rounds, each
of which maps a new frame at the next page. -/
def mapFrames (start flags p4Tbl : Word) :
    (count : Nat) → Machine → Option Machine
  | 0, s => some s
  | count + 1, s =>
      (mapFrames start flags p4Tbl count s).bind fun s =>
        s.allocFrame.bind fun result =>
          mapAddr result.1 (Pmm.pageAddress start count) flags p4Tbl result.2

/-- The loop of `vfree`: its first `count` rounds. -/
def clearFrames (start p4Tbl : Word) : (count : Nat) → Machine → Machine
  | 0, s => s
  | count + 1, s =>
      let s := clearFrames start p4Tbl count s
      { s with
        pmm := s.pmm.pmmClearBit
          (s.translateAddr (Pmm.pageAddress start count) p4Tbl) }

end Machine

namespace VmmLevel

/-- The flags that `init_vmm` chooses. -/
def flags : VmmLevel → Word
  | supervisor => kernelPtEntry
  | user => userPtEntry

/-- The start of the window that `init_vmm` chooses. -/
def base : VmmLevel → Nat
  | supervisor => higherHalfOffset.toNat
  | user => pageSize

end VmmLevel

namespace Space

/-- `init_vmm`. -/
def initVmm (level : VmmLevel) (maxPages : Nat) (s : Space) : Option Space :=
  (Machine.mapFrames (BitVec.ofNat 64 level.base) level.flags s.vi.p4Tbl
      (divCeil maxPages pageSize) s.machine).map fun machine =>
    let fresh := Bitmap.initBitmap s.mem { s.vi.bm with bm := level.base }
      (wrap (maxPages * pageSize)) pageSize
    { machine := machine
      mem := fresh.1
      vi := { s.vi with flags := level.flags, bm := fresh.2 } }

/-- `valloc`: the address returned, 0 being the null pointer, and the state. -/
def valloc (pages : Nat) (s : Space) : Option (Nat × Space) :=
  if pages = 0 then some (0, s)
  else
    let new := Bitmap.bmAlloc s.mem (wrap (pages * pageSize)) s.vi.bm
    (Machine.mapFrames (BitVec.ofNat 64 new.1) s.vi.flags s.vi.p4Tbl pages
        s.machine).map fun machine =>
      (new.1,
        { machine := machine
          mem := new.2.1
          vi := { s.vi with bm := new.2.2 } })

/-- A `valloc` that returns did nothing, or took blocks and mapped pages. -/
theorem valloc_cases
    {pages : Nat} {s : Space} {result : Nat × Space}
    (taken : s.valloc pages = some result) :
    (pages = 0 ∧ result = (0, s)) ∨
      pages ≠ 0 ∧ ∃ machine,
        Machine.mapFrames
            (BitVec.ofNat 64
              (Bitmap.bmAlloc s.mem (wrap (pages * pageSize)) s.vi.bm).1)
            s.vi.flags s.vi.p4Tbl pages s.machine = some machine ∧
        result =
          ((Bitmap.bmAlloc s.mem (wrap (pages * pageSize)) s.vi.bm).1,
            { machine := machine
              mem := (Bitmap.bmAlloc s.mem (wrap (pages * pageSize))
                s.vi.bm).2.1
              vi := { s.vi with
                bm := (Bitmap.bmAlloc s.mem (wrap (pages * pageSize))
                  s.vi.bm).2.2 } }) := by
  rw [valloc] at taken
  split at taken
  · next none => exact Or.inl ⟨none, (Option.some.inj taken).symm⟩
  · next some_pages =>
      obtain ⟨machine, mapped, same⟩ := Option.map_eq_some_iff.mp taken
      exact Or.inr ⟨some_pages, machine, mapped, same.symm⟩

/-- `vfree`. -/
def vfree (address : Nat) (s : Space) : Space :=
  let freed := Bitmap.bmFree s.mem address s.vi.bm
  { machine := s.machine.clearFrames (BitVec.ofNat 64 address) s.vi.p4Tbl
      (freed.1 / pageSize)
    mem := freed.2.1
    vi := { s.vi with bm := freed.2.2 } }

end Space
end PivotOs
