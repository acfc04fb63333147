import PivotOs.Acpi.Init

/-!
# Room for what the kernel keeps

The overrides and the data of the processors take blocks of the heap.  On the
heap of the boot they are kept as long as there are enough blocks for all of
them, and the arrays stay as they are.
-/

namespace PivotOs

/-- The arrays that the kernel has are in memory. -/
def AcpiState.ArraysIn (s : AcpiState) : Prop :=
  ∀ madt, s.madt = some madt →
    ByteImage.Stored s.heap.mem madt.ovrdsPtr
        (madt.ovrds.flatMap IoapicSo.bytes) ∧
      ByteImage.Stored s.heap.mem madt.kcpus (Madt.blankCpus madt.numCpus)

/-- The state before `init_acpi`, with the heap of the boot. -/
def AcpiState.Booted (s : AcpiState) : Prop :=
  s.madt = none ∧ s.heap.Booted

namespace Acpi

open KernelHeap

/-- The blocks of the heap that the arrays of a table take. -/
def Content.blocks : Content → Nat
  | apic _ _ entries =>
      divCeil (ioapicSoSize * (entries.filterMap MadtEntry.ovrd).length)
          heapDefaultBs +
        divCeil (cpuDataSize * (entries.filterMap MadtEntry.processor).length)
          heapDefaultBs
  | other _ _ _ _ => 0

/-- The blocks that the arrays of some tables take. -/
def blocksOf (tables : List FirmwareTable) : Nat :=
  (tables.map fun table => table.content.blocks).sum

/-- The heap of the boot has room for 71 processors, and not for 72. -/
example :
    (Content.apic 0#32 0#32
        (List.replicate 71 (.lapic 0#8 0#8 1#32))).blocks = bootRoom ∧
      bootRoom < (Content.apic 0#32 0#32
        (List.replicate 72 (.lapic 0#8 0#8 1#32))).blocks := by
  decide

/-- Small requests are covered by their blocks. -/
theorem le_blocks_mul {size : Nat} (small : size + heapDefaultBs < 2 ^ 64) :
    size ≤ divCeil size heapDefaultBs * heapDefaultBs := by
  simp only [divCeil, wrap, heapDefaultBs] at small ⊢
  omega

theorem ovrds_bytes_length (ovrds : List IoapicSo) :
    (ovrds.flatMap IoapicSo.bytes).length = ioapicSoSize * ovrds.length := by
  rw [List.length_flatMap]
  simp [IoapicSo.bytes_length, Nat.mul_comm]

theorem blankCpus_length (numCpus : Nat) :
    (Madt.blankCpus numCpus).length = cpuDataSize * numCpus :=
  List.length_replicate

/-- The heap has `count` blocks in use, and the arrays of the kernel among
them. -/
structure Holds (r : Bitmap.Region) (count : Nat) (s : AcpiState) : Prop where
  filled : Filled r count s.heap
  arrays : ∀ madt, s.madt = some madt →
    Filled.Kept r count s.heap madt.ovrdsPtr
        (madt.ovrds.flatMap IoapicSo.bytes) ∧
      Filled.Kept r count s.heap madt.kcpus (Madt.blankCpus madt.numCpus)

variable {r : Bitmap.Region} {count : Nat} {s after : AcpiState}

theorem Holds.arraysIn (holds : Holds r count s) : s.ArraysIn :=
  fun madt known =>
    ⟨(holds.arrays madt known).1.stored, (holds.arrays madt known).2.stored⟩

theorem room_add (r : Bitmap.Region) (count more : Nat) :
    room r (count + more) = room r count - more := by
  simp only [room]
  omega

/-- An array of the kernel gets its blocks, or the first store to it faults. -/
theorem array_cases
    {heap : KernelHeap} {bytes : List (BitVec 8)}
    (bsize_eq : r.bsize = heapDefaultBs)
    (filled : Filled r count heap)
    (small : bytes.length + heapDefaultBs < 2 ^ 64) :
    (divCeil bytes.length heapDefaultBs ≤ room r count ∧
        ∃ ptr after, heap.array bytes = some (ptr, after) ∧
          Filled r (count + divCeil bytes.length heapDefaultBs) after ∧
          Filled.Kept r (count + divCeil bytes.length heapDefaultBs) after ptr
            bytes ∧
          ∀ old earlier, Filled.Kept r count heap old earlier →
            Filled.Kept r (count + divCeil bytes.length heapDefaultBs) after old
              earlier) ∨
      room r count < divCeil bytes.length heapDefaultBs ∧
        heap.array bytes = none := by
  rw [← bsize_eq] at small ⊢
  by_cases enough : divCeil bytes.length r.bsize ≤ room r count
  · refine .inl ⟨enough, filled.array_of_room ?_ enough⟩
    rw [bsize_eq] at small ⊢
    exact le_blocks_mul small
  · have full := Nat.lt_of_not_le enough
    exact .inr ⟨full, filled.array_of_full full⟩

/-- A table is kept when there is room for its arrays, and is not otherwise. -/
theorem keep_cases
    {content : Content}
    (bsize_eq : r.bsize = heapDefaultBs)
    (usable : content.Usable)
    (holds : Holds r count s) :
    (content.blocks ≤ room r count ∧
        ∃ after, content.keep s = some after ∧
          Holds r (count + content.blocks) after) ∨
      room r count < content.blocks ∧ content.keep s = none := by
  cases content with
  | other signature body four named =>
      exact .inl ⟨Nat.zero_le _, s, rfl, holds⟩
  | apic lapicBase flags entries =>
      obtain ⟨found, fewOvrds, fewCpus⟩ := usable
      obtain ⟨controller, rest, listed⟩ := List.exists_cons_of_ne_nil found
      set ovrds := entries.filterMap MadtEntry.ovrd with ovrds_eq
      set numCpus := (entries.filterMap MadtEntry.processor).length
        with numCpus_eq
      have first : (ovrds.flatMap IoapicSo.bytes).length =
          ioapicSoSize * ovrds.length := ovrds_bytes_length ovrds
      have second := blankCpus_length numCpus
      have blocks : (Content.apic lapicBase flags entries).blocks =
          divCeil (ovrds.flatMap IoapicSo.bytes).length heapDefaultBs +
            divCeil (Madt.blankCpus numCpus).length heapDefaultBs := by
        rw [first, second]
        rfl
      rw [blocks]
      simp only [Content.keep, ← ovrds_eq, ← numCpus_eq, listed,
        List.head?_cons, Option.bind_some]
      have fewBytes : (ovrds.flatMap IoapicSo.bytes).length + heapDefaultBs <
          2 ^ 64 := by
        rw [first, ioapicSoSize, heapDefaultBs]
        omega
      have lessBytes : (Madt.blankCpus numCpus).length + heapDefaultBs <
          2 ^ 64 := by
        rw [second, cpuDataSize, heapDefaultBs]
        omega
      rcases array_cases bsize_eq holds.filled fewBytes with
        ⟨enough, ovrdsPtr, middle, placed, filled, kept, -⟩ | ⟨full, faults⟩
      swap
      · exact .inr ⟨by omega, by rw [faults, Option.bind_none]⟩
      rw [placed, Option.bind_some]
      rcases array_cases bsize_eq filled lessBytes with
        ⟨more, kcpus, last, placedToo, filledToo, keptToo, others⟩ |
        ⟨full, faults⟩
      · rw [room_add] at more
        rw [placedToo, Option.map_some, ← Nat.add_assoc]
        refine .inl ⟨by omega, _, rfl, filledToo, fun madt known => ?_⟩
        obtain rfl := Option.some.inj known
        exact ⟨others _ _ kept, keptToo⟩
      · rw [room_add] at full
        exact .inr ⟨by omega, by rw [faults, Option.map_none]⟩

namespace FirmwareTables

/-- Some tables are kept when there is room for all their arrays, and are not
otherwise. -/
theorem keepAll_cases
    (tables : List FirmwareTable)
    (bsize_eq : r.bsize = heapDefaultBs)
    (holds : Holds r count s) :
    (blocksOf tables ≤ room r count ∧
        ∃ after, keepAll s tables = some after ∧
          Holds r (count + blocksOf tables) after) ∨
      room r count < blocksOf tables ∧ keepAll s tables = none := by
  induction tables generalizing s count with
  | nil => exact .inl ⟨Nat.zero_le _, s, rfl, holds⟩
  | cons table tables inductionHypothesis =>
      have blocks : blocksOf (table :: tables) =
          table.content.blocks + blocksOf tables := List.sum_cons
      rw [blocks, keepAll]
      rcases keep_cases bsize_eq table.usable holds with
        ⟨enough, middle, kept, holdsThen⟩ | ⟨full, faults⟩
      · rw [kept, Option.bind_some, ← Nat.add_assoc]
        rcases inductionHypothesis holdsThen with
          ⟨more, rest⟩ | ⟨full, faults⟩
        · rw [room_add] at more
          exact .inl ⟨by omega, rest⟩
        · rw [room_add] at full
          exact .inr ⟨by omega, faults⟩
      · exact .inr ⟨by omega, by rw [faults, Option.bind_none]⟩

/-- On the heap of the boot, tables are kept exactly when their arrays take no
more blocks than it has, and then the arrays are in memory. -/
theorem keepAll_of_booted
    (booted : s.Booted)
    (tables : List FirmwareTable) :
    ((keepAll s tables).isSome ↔ blocksOf tables ≤ bootRoom) ∧
      ∀ after, keepAll s tables = some after → after.ArraysIn := by
  obtain ⟨unset, heap⟩ := booted
  obtain ⟨r, bsize_eq, room_eq, filled⟩ := heap.filled
  have holds : Holds r 0 s := by
    refine ⟨filled, fun madt known => ?_⟩
    rw [unset] at known
    cases known
  rcases keepAll_cases tables bsize_eq holds with
    ⟨enough, last, kept, holdsThen⟩ | ⟨full, faults⟩
  · rw [room_eq] at enough
    rw [kept]
    refine ⟨iff_of_true rfl enough, fun after same => ?_⟩
    obtain rfl := Option.some.inj same
    exact holdsThen.arraysIn
  · rw [room_eq] at full
    rw [faults]
    exact ⟨iff_of_false Bool.false_ne_true (Nat.not_le.mpr full),
      fun _ same => nomatch same⟩

end FirmwareTables
end Acpi
end PivotOs
