import PivotOs.Acpi.Madt
import PivotOs.Heap.Arrays

/-!
# What the kernel takes from the description table

`parse_madt` stores the address of the local APIC, the I/O APIC, every interrupt
source override, and the number of processors.  It copies the overrides by
counting them and asking for one index after another.  The index is a byte, so
256 entries of one type are one too many: every index has an entry then, and the
count never ends.  The overrides and the data of the processors are arrays on the
heap; where it has no room for one of them, the first store faults.
-/

namespace PivotOs

/-- `ioapic_so_t`. -/
structure IoapicSo where
  /-- `header.type`. -/
  type : BitVec 8
  /-- `header.length`. -/
  length : BitVec 8
  /-- `bus_source`. -/
  busSource : BitVec 8
  /-- `irq_source`. -/
  irqSource : BitVec 8
  /-- `gsi_base`. -/
  gsiBase : BitVec 32
  /-- `flags`. -/
  flags : BitVec 16
  deriving DecidableEq

/-- The bytes of an `ioapic_so_t`. -/
def IoapicSo.bytes (so : IoapicSo) : List (BitVec 8) :=
  so.type :: so.length :: so.busSource :: so.irqSource ::
    (ByteImage.littleEndian 4 so.gsiBase.toNat ++
      ByteImage.littleEndian 2 so.flags.toNat)

/-- `sizeof(ioapic_so_t)`. -/
def ioapicSoSize : Nat := 10

theorem IoapicSo.bytes_length (so : IoapicSo) :
    so.bytes.length = ioapicSoSize := rfl

/-- `sizeof(cpu_data_t)`. -/
def cpuDataSize : Nat := 56

/-- What `parse_madt` stores. -/
structure ParsedMadt where
  /-- `KLAPIC.addr`. -/
  lapicAddr : Word
  /-- `KIOAPIC.addr`. -/
  ioapicAddr : Word
  /-- `KIOAPIC.gsi_base`. -/
  gsiBase : BitVec 32
  /-- `KIOAPIC.ovrds`. -/
  ovrdsPtr : Nat
  /-- The array there, of length `KIOAPIC.num_ovrds`. -/
  ovrds : List IoapicSo
  /-- `KSMP.num_cpus`. -/
  numCpus : Nat
  /-- `KCPUS`. -/
  kcpus : Nat

namespace Madt

/-- `MADT_IOAPIC`. -/
def ioapicType : BitVec 8 := 1#8

/-- `MADT_INT_SO_OVRD`. -/
def intSoOvrdType : BitVec 8 := 2#8

/-- The `uint32_t` at an offset. -/
def dwordAt (byte : Nat → BitVec 8) (offset : Nat) : BitVec 32 :=
  byte (offset + 3) ++ byte (offset + 2) ++ byte (offset + 1) ++ byte offset

/-- The table at an address.  Its length is the second field of its header. -/
def ofBytes (byte : Nat → BitVec 8) : Madt where
  length := dwordAt byte 4
  byte := byte

/-- The `ioapic_so_t` at an offset. -/
def ioapicSoAt (table : Madt) (item : Nat) : IoapicSo where
  type := table.byte item
  length := table.byte (item + 1)
  busSource := table.byte (item + 2)
  irqSource := table.byte (item + 3)
  gsiBase := dwordAt table.byte (item + 4)
  flags := table.byte (item + 9) ++ table.byte (item + 8)

/-- The loop of `parse_madt` that copies the overrides.  There is no override at
`NULL`. -/
def copyOvrdsFrom (table : Madt) : (left i : Nat) → Option (List IoapicSo)
  | 0, _ => some []
  | left + 1, i =>
      match table.getMadtItem intSoOvrdType (BitVec.ofNat 8 i) with
      | some (some item) =>
          (copyOvrdsFrom table left (i + 1)).map (table.ioapicSoAt item :: ·)
      | _ => none

/-- How `parse_madt` fills `KIOAPIC.ovrds`.  The fuel is that of
`get_madt_count`. -/
def copyOvrds (table : Madt) (fuel : Nat) : Option (List IoapicSo) :=
  (table.getMadtCountFrom intSoOvrdType fuel 0).bind fun numOvrds =>
    copyOvrdsFrom table numOvrds 0

/-- The array of the processors after `memset`. -/
def blankCpus (numCpus : Nat) : List (BitVec 8) :=
  List.replicate (cpuDataSize * numCpus) 0#8

/-- `parse_madt`: what it stores, and the heap with the two arrays.  There is no
I/O APIC at `NULL`. -/
def parseMadt (table : Madt) (fuel : Nat) (heap : KernelHeap) :
    Option (ParsedMadt × KernelHeap) :=
  match table.getMadtItem ioapicType 0#8 with
  | some (some ioapic) =>
      (table.copyOvrds fuel).bind fun ovrds =>
        (heap.array (ovrds.flatMap IoapicSo.bytes)).bind fun (ovrdsPtr, heap) =>
          (table.getMadtCountFrom lapicType fuel 0).bind fun numCpus =>
            (heap.array (blankCpus numCpus)).map fun (kcpus, heap) =>
              ({ lapicAddr := (dwordAt table.byte 36).setWidth 64
                 ioapicAddr := (dwordAt table.byte (ioapic + 4)).setWidth 64
                 gsiBase := dwordAt table.byte (ioapic + 8)
                 ovrdsPtr
                 ovrds
                 numCpus
                 kcpus }, heap)
  | _ => none

variable {table : Madt} {searchItem : BitVec 8} {items : List Nat}

/-! ## Counting and indexing -/

/-- The entries of one type are counted, and found by their index. -/
structure Listed (table : Madt) (searchItem : BitVec 8) (items : List Nat) :
    Prop where
  /-- `get_madt_count` ends with their number. -/
  counted : ∃ fuel, table.getMadtCountFrom searchItem fuel 0 =
    some (table.ofType searchItem items).length
  /-- `get_madt_item` returns the entry with the given number. -/
  indexed : ∀ k (below : k < (table.ofType searchItem items).length),
    table.getMadtItem searchItem (BitVec.ofNat 8 k) =
      some (some (table.ofType searchItem items)[k])

/-- Every override is copied, in the order of the table. -/
def CopiesOvrds (table : Madt) (items : List Nat) : Prop :=
  ∃ fuel, table.copyOvrds fuel =
    some ((table.ofType intSoOvrdType items).map table.ioapicSoAt)

theorem getMadtItem_of_lt
    {k : Nat}
    (tiled : Tiled table headerSize items)
    (narrow : k < 256)
    (below : k < (table.ofType searchItem items).length) :
    table.getMadtItem searchItem (BitVec.ofNat 8 k) =
      some (some (table.ofType searchItem items)[k]) := by
  have same : (BitVec.ofNat 8 k).toNat = k := by
    rw [BitVec.toNat_ofNat]
    omega
  rw [getMadtItem_eq tiled, same, List.getElem?_eq_getElem below]

/-- With 256 entries every index is found, so the count goes on. -/
theorem getMadtCountFrom_eq_none
    (tiled : Tiled table headerSize items)
    (many : 256 ≤ (table.ofType searchItem items).length)
    (fuel from_ : Nat) :
    table.getMadtCountFrom searchItem fuel from_ = none := by
  induction fuel generalizing from_ with
  | zero => rfl
  | succ fuel inductionHypothesis =>
      have narrow := (BitVec.ofNat 8 from_).isLt
      rw [getMadtCountFrom, getMadtItem_eq tiled,
        List.getElem?_eq_getElem (by omega)]
      exact inductionHypothesis (from_ + 1)

theorem counted_iff
    (tiled : Tiled table headerSize items) :
    (∃ fuel, table.getMadtCountFrom searchItem fuel 0 =
        some (table.ofType searchItem items).length) ↔
      (table.ofType searchItem items).length < 256 := by
  constructor
  · rintro ⟨fuel, counted⟩
    by_contra many
    rw [getMadtCountFrom_eq_none tiled (Nat.not_lt.mp many)] at counted
    cases counted
  · exact fun few => ⟨257, getMadtCount_eq tiled few⟩

theorem listed_iff
    (tiled : Tiled table headerSize items) :
    table.Listed searchItem items ↔
      (table.ofType searchItem items).length < 256 := by
  refine ⟨fun listed => (counted_iff tiled).mp listed.counted, fun few => ?_⟩
  exact {
    counted := (counted_iff tiled).mpr few
    indexed := fun _ below => getMadtItem_of_lt tiled (by omega) below }

/-! ## The overrides -/

/-- The copy goes through the entries from an index on. -/
theorem copyOvrdsFrom_eq
    (tiled : Tiled table headerSize items)
    (few : (table.ofType intSoOvrdType items).length < 256)
    (left i : Nat)
    (rest : i + left = (table.ofType intSoOvrdType items).length) :
    table.copyOvrdsFrom left i =
      some (((table.ofType intSoOvrdType items).drop i).map
        table.ioapicSoAt) := by
  induction left generalizing i with
  | zero =>
      rw [copyOvrdsFrom, List.drop_eq_nil_of_le (by omega)]
      rfl
  | succ left inductionHypothesis =>
      have below : i < (table.ofType intSoOvrdType items).length := by omega
      rw [copyOvrdsFrom, getMadtItem_of_lt tiled (by omega) below,
        List.drop_eq_getElem_cons below]
      simp only [inductionHypothesis (i + 1) (by omega)]
      rfl

theorem copiesOvrds_iff
    (tiled : Tiled table headerSize items) :
    table.CopiesOvrds items ↔
      (table.ofType intSoOvrdType items).length < 256 := by
  constructor
  · rintro ⟨fuel, copied⟩
    by_contra many
    rw [copyOvrds, getMadtCountFrom_eq_none tiled (Nat.not_lt.mp many)]
      at copied
    cases copied
  · intro few
    obtain ⟨fuel, counted⟩ := (counted_iff tiled).mpr few
    refine ⟨fuel, ?_⟩
    rw [copyOvrds, counted, Option.bind_some,
      copyOvrdsFrom_eq tiled few _ 0 (Nat.zero_add _), List.drop_zero]

/-- What `parse_madt` stores from a table with an I/O APIC and few enough
entries, where the heap has room. -/
theorem parseMadt_eq
    {ioapic : Nat} {ioapics : List Nat}
    (heap : KernelHeap)
    (tiled : Tiled table headerSize items)
    (found : table.ofType ioapicType items = ioapic :: ioapics)
    (fewOvrds : (table.ofType intSoOvrdType items).length < 256)
    (fewLapics : (table.ofType lapicType items).length < 256) :
    table.parseMadt 257 heap =
      let ovrds := (table.ofType intSoOvrdType items).map table.ioapicSoAt
      let numCpus := (table.ofType lapicType items).length
      (heap.array (ovrds.flatMap IoapicSo.bytes)).bind fun (ovrdsPtr, heap) =>
        (heap.array (blankCpus numCpus)).map fun (kcpus, heap) =>
          ({ lapicAddr := (dwordAt table.byte 36).setWidth 64
             ioapicAddr := (dwordAt table.byte (ioapic + 4)).setWidth 64
             gsiBase := dwordAt table.byte (ioapic + 8)
             ovrdsPtr
             ovrds
             numCpus
             kcpus }, heap) := by
  have first : table.getMadtItem ioapicType 0#8 = some (some ioapic) := by
    rw [getMadtItem_eq tiled, found]
    rfl
  have ovrds : table.getMadtCountFrom intSoOvrdType 257 0 =
      some (table.ofType intSoOvrdType items).length :=
    getMadtCount_eq tiled fewOvrds
  have lapics : table.getMadtCountFrom lapicType 257 0 =
      some (table.ofType lapicType items).length :=
    getMadtCount_eq tiled fewLapics
  simp only [parseMadt, first, copyOvrds, ovrds, lapics, Option.bind_some,
    copyOvrdsFrom_eq tiled fewOvrds _ 0 (Nat.zero_add _), List.drop_zero]

/-- The entries of a type are counted and found by their index exactly when
there are fewer than 256 of them, and the overrides are copied exactly when
there are fewer than 256 of these. -/
theorem listed_iff_and_copiesOvrds_iff
    (tiled : Tiled table headerSize items)
    (searchItem : BitVec 8) :
    (table.Listed searchItem items ↔
        (table.ofType searchItem items).length < 256) ∧
      (table.CopiesOvrds items ↔
        (table.ofType intSoOvrdType items).length < 256) :=
  ⟨listed_iff tiled, copiesOvrds_iff tiled⟩

/-! ## A table with 256 overrides -/

/-- Entries of one length fill a table. -/
theorem tiled_of_uniform
    {size : Nat}
    (long : 2 ≤ size)
    (count start : Nat)
    (uniform : ∀ k, k < count →
      (table.byte (start + size * k + 1)).toNat = size)
    (filled : table.length.toNat = start + size * count) :
    Tiled table start ((List.range count).map fun k => start + size * k) := by
  induction count generalizing start with
  | zero =>
      rw [Nat.mul_zero, Nat.add_zero] at filled
      rw [← filled]
      exact .nil
  | succ count inductionHypothesis =>
      have first : (table.byte (start + 1)).toNat = size := by
        simpa using uniform 0 (Nat.succ_pos count)
      rw [List.range_succ_eq_map, List.map_cons, List.map_map, Nat.mul_zero,
        Nat.add_zero]
      refine .cons (first ▸ long) ?_
      rw [first]
      have moved : ((fun k => start + size * k) ∘ Nat.succ) =
          fun k => start + size + size * k := by
        funext k
        rw [Function.comp_apply, Nat.mul_succ]
        omega
      rw [moved]
      refine inductionHypothesis (start + size) (fun k below => ?_) ?_
      · have position : start + size + size * k + 1 =
            start + size * (k + 1) + 1 := by
          rw [Nat.mul_succ]
          omega
        rw [position]
        exact uniform (k + 1) (by omega)
      · rw [filled, Nat.mul_succ]
        omega

/-- A table of one override for each of the 256 interrupt sources. -/
def fullTable : Madt := ofBytes fun offset =>
  if offset = 4 then 0x2C#8
  else if offset = 5 then 0x0A#8
  else if offset < headerSize then 0#8
  else match (offset - headerSize) % 10 with
    | 0 => intSoOvrdType
    | 1 => 10#8
    | 3 => BitVec.ofNat 8 ((offset - headerSize) / 10)
    | 4 => BitVec.ofNat 8 ((offset - headerSize) / 10)
    | _ => 0#8

theorem byte_fullTable (k j : Nat) :
    fullTable.byte (headerSize + 10 * k + j) =
      match (10 * k + j) % 10 with
      | 0 => intSoOvrdType
      | 1 => 10#8
      | 3 => BitVec.ofNat 8 ((10 * k + j) / 10)
      | 4 => BitVec.ofNat 8 ((10 * k + j) / 10)
      | _ => 0#8 := by
  have position : headerSize + 10 * k + j - headerSize = 10 * k + j := by omega
  have behind : ¬ headerSize + 10 * k + j < headerSize := by omega
  have four : headerSize + 10 * k + j ≠ 4 := by
    rw [headerSize]
    omega
  have five : headerSize + 10 * k + j ≠ 5 := by
    rw [headerSize]
    omega
  simp only [fullTable, ofBytes, four, five, behind, position, if_false]

/-- The offsets of its entries. -/
def fullItems : List Nat :=
  (List.range 256).map fun k => headerSize + 10 * k

theorem tiled_fullTable : Tiled fullTable headerSize fullItems := by
  refine tiled_of_uniform (by decide) 256 headerSize (fun k below => ?_)
    (by decide)
  rw [byte_fullTable]
  have second : (10 * k + 1) % 10 = 1 := by omega
  rw [second]
  rfl

theorem ofType_fullTable :
    fullTable.ofType intSoOvrdType fullItems = fullItems := by
  rw [ofType, List.filter_eq_self]
  intro item listed
  obtain ⟨k, -, rfl⟩ := List.mem_map.mp listed
  have first : (10 * k + 0) % 10 = 0 := by omega
  rw [← Nat.add_zero (headerSize + 10 * k), byte_fullTable, first]
  rfl

theorem listed_fullTable_lapics :
    fullTable.Listed lapicType fullItems ∧
      ¬ fullTable.CopiesOvrds fullItems := by
  obtain ⟨listed, copies⟩ :=
    listed_iff_and_copiesOvrds_iff tiled_fullTable lapicType
  refine ⟨listed.mpr ?_, fun copied => ?_⟩
  · have absent : fullTable.ofType lapicType fullItems = [] := by
      rw [ofType, ← ofType_fullTable, ofType, List.filter_filter,
        List.filter_eq_nil_iff]
      intro item _ both
      rw [Bool.and_eq_true, decide_eq_true_iff, decide_eq_true_iff] at both
      have same : lapicType = intSoOvrdType := both.1.symm.trans both.2
      revert same
      decide
    rw [absent]
    decide
  · have few := copies.mp copied
    rw [ofType_fullTable, fullItems, List.length_map, List.length_range] at few
    exact Nat.lt_irrefl _ few

/-- In a table with an override for each of the 256 interrupt sources, the
overrides are neither counted nor copied. -/
theorem not_listed_fullTable :
    Tiled fullTable headerSize fullItems ∧
      ¬ fullTable.Listed intSoOvrdType fullItems ∧
      ¬ fullTable.CopiesOvrds fullItems := by
  have many : ¬ (fullTable.ofType intSoOvrdType fullItems).length < 256 := by
    rw [ofType_fullTable, fullItems, List.length_map, List.length_range]
    decide
  refine ⟨tiled_fullTable, ?_, ?_⟩
  · rwa [listed_iff tiled_fullTable]
  · rwa [copiesOvrds_iff tiled_fullTable]

end Madt
end PivotOs
