import PivotOs.Acpi.Room
import Mathlib.Data.List.TakeWhile

/-!
# From the firmware's tables to the kernel

Whatever tables the firmware lays out as the format says, `init_acpi` reads what they
say, up to the first one whose bytes do not add up, as long as the heap has room
for it.
-/

namespace PivotOs
namespace Acpi

/-! ## Reading a table -/

theorem checksum_eq (start : Nat → BitVec 8) (length : Nat) :
    checksum start length = ByteImage.sumFrom start length := by
  induction length with
  | zero => rfl
  | succ length inductionHypothesis =>
      rw [checksum, ByteImage.sumFrom, inductionHypothesis]

theorem field_eq (mem : Memory) (offset width : Nat) :
    mem.field offset width = ByteImage.field mem offset width := by
  induction width generalizing offset with
  | zero => rfl
  | succ width inductionHypothesis =>
      rw [Memory.field, ByteImage.field, inductionHypothesis]

/-- A byte in front of others. -/
theorem append_byte_toNat {width : Nat} (high : BitVec width) (low : BitVec 8) :
    (high ++ low).toNat = low.toNat + 256 * high.toNat := by
  rw [BitVec.toNat_append, ← Nat.shiftLeft_add_eq_or_of_lt low.isLt,
    Nat.shiftLeft_eq, Nat.add_comm, Nat.mul_comm]

theorem dwordAt_eq (byte : Nat → BitVec 8) (offset : Nat) :
    Madt.dwordAt byte offset = BitVec.ofNat 32 (ByteImage.field byte offset 4) := by
  have small : ByteImage.field byte offset 4 < 2 ^ 32 := by
    have first := (byte offset).isLt
    have second := (byte (offset + 1)).isLt
    have third := (byte (offset + 1 + 1)).isLt
    have fourth := (byte (offset + 1 + 1 + 1)).isLt
    simp only [ByteImage.field]
    omega
  apply BitVec.eq_of_toNat_eq
  rw [BitVec.toNat_ofNat, Nat.mod_eq_of_lt small, Madt.dwordAt]
  simp only [append_byte_toNat, ByteImage.field, Nat.add_assoc,
    Nat.reduceAdd]
  omega

/-- A `uint32_t` is read as it was written. -/
theorem dwordAt_of_stored
    {byte : Nat → BitVec 8} (offset : Nat) {value : BitVec 32}
    (stored : ByteImage.Stored byte offset
      (ByteImage.littleEndian 4 value.toNat)) :
    Madt.dwordAt byte offset = value := by
  rw [dwordAt_eq, ByteImage.field_of_stored value.isLt stored]
  rw [BitVec.ofNat_toNat, BitVec.setWidth_eq]

/-- So is a `uint16_t`. -/
theorem wordAt_of_stored
    {byte : Nat → BitVec 8} (offset : Nat) {value : BitVec 16}
    (stored : ByteImage.Stored byte offset
      (ByteImage.littleEndian 2 value.toNat)) :
    byte (offset + 1) ++ byte offset = value := by
  have read := ByteImage.field_of_stored value.isLt stored
  apply BitVec.eq_of_toNat_eq
  rw [append_byte_toNat, ← read]
  simp only [ByteImage.field, Nat.mul_zero, Nat.add_zero]

/-! ## Entries -/

/-- Where the entries are, from an offset on. -/
def offsetsFrom : (item : Nat) → List MadtEntry → List Nat
  | _, [] => []
  | item, entry :: entries =>
      item :: offsetsFrom (item + entry.bytes.length) entries

/-- Every entry is found at its offset. -/
def Placed (byte : Nat → BitVec 8) : List MadtEntry → List Nat → Prop :=
  List.Forall₂ fun entry item => ByteImage.Stored byte item entry.bytes

theorem payload_length_lt (entry : MadtEntry) : entry.payload.length < 254 := by
  cases entry with
  | lapic acpiId id flags => simp [MadtEntry.payload]
  | ioapic id rsv addr gsiBase => simp [MadtEntry.payload]
  | intSoOvrd busSource irqSource gsiBase flags => simp [MadtEntry.payload]
  | other type payload known short => exact short

section Entries

variable {table : Madt} {item : Nat} {items : List Nat}
variable {entry : MadtEntry} {entries : List MadtEntry}

/-- The type and the length of an entry, and what is behind them. -/
theorem entry_stored
    (stored : ByteImage.Stored table.byte item entry.bytes) :
    table.byte item = entry.type ∧
      (table.byte (item + 1)).toNat = entry.bytes.length ∧
      ByteImage.Stored table.byte (item + 2) entry.payload := by
  have short := payload_length_lt entry
  obtain ⟨type, rest⟩ := ByteImage.stored_cons.mp stored
  obtain ⟨length, payload⟩ := ByteImage.stored_cons.mp rest
  refine ⟨type, ?_, payload⟩
  rw [length, BitVec.toNat_ofNat, MadtEntry.bytes, List.length_cons,
    List.length_cons]
  omega

/-- Entries that fill a table. -/
theorem tiled_of_stored
    (stored : ByteImage.Stored table.byte item
      (entries.flatMap MadtEntry.bytes))
    (fills : item + (entries.flatMap MadtEntry.bytes).length =
      table.length.toNat) :
    Madt.Tiled table item (offsetsFrom item entries) ∧
      Placed table.byte entries (offsetsFrom item entries) := by
  induction entries generalizing item with
  | nil =>
      rw [List.flatMap_nil, List.length_nil, Nat.add_zero] at fills
      subst fills
      exact ⟨.nil, .nil⟩
  | cons entry entries inductionHypothesis =>
      rw [List.flatMap_cons] at stored fills
      rw [List.length_append, ← Nat.add_assoc] at fills
      obtain ⟨first, rest⟩ := ByteImage.stored_append.mp stored
      obtain ⟨-, length, -⟩ := entry_stored first
      obtain ⟨tiled, placed⟩ := inductionHypothesis rest fills
      refine ⟨.cons ?_ ?_, .cons first placed⟩
      · rw [length, MadtEntry.bytes, List.length_cons, List.length_cons]
        omega
      · rwa [length]

/-- Reading the entries of one type gives what was written in these. -/
theorem ofType_map
    {Read : Type} {type : BitVec 8} {decode : Nat → Read}
    {read : MadtEntry → Option Read}
    (reads : ∀ entry item, ByteImage.Stored table.byte item entry.bytes →
      (if entry.type = type then some (decode item) else none) = read entry)
    (placed : Placed table.byte entries items) :
    (table.ofType type items).map decode = entries.filterMap read := by
  induction placed with
  | nil => rfl
  | @cons entry item entries items first placed inductionHypothesis =>
      have found := (entry_stored first).1
      have written := reads entry item first
      by_cases same : entry.type = type
      · rw [if_pos same] at written
        rw [Madt.ofType, List.filter_cons_of_pos (by rw [found]; simpa using same),
          List.map_cons, List.filterMap_cons_some written.symm]
        exact congrArg _ inductionHypothesis
      · rw [if_neg same] at written
        rw [Madt.ofType, List.filter_cons_of_neg (by rw [found]; simpa using same),
          List.filterMap_cons_none written.symm]
        exact inductionHypothesis

theorem ioapics_eq (placed : Placed table.byte entries items) :
    (table.ofType Madt.ioapicType items).map (fun item =>
        (Madt.dwordAt table.byte (item + 4),
          Madt.dwordAt table.byte (item + 8))) =
      entries.filterMap MadtEntry.controller := by
  refine ofType_map ?_ placed
  intro entry item stored
  obtain ⟨-, -, payload⟩ := entry_stored stored
  cases entry with
  | lapic acpiId id flags => rfl
  | ioapic id rsv addr gsiBase =>
      simp only [MadtEntry.payload, ByteImage.stored_cons,
        ByteImage.stored_append, ByteImage.littleEndian_length] at payload
      obtain ⟨-, -, address, base⟩ := payload
      rw [dwordAt_of_stored (item + 4) address,
        dwordAt_of_stored (item + 8) base]
      rfl
  | intSoOvrd busSource irqSource gsiBase flags => rfl
  | other type payload known short =>
      refine if_neg fun same => ?_
      rw [show type = Madt.ioapicType from same] at known
      exact absurd known (by decide)

theorem ovrds_eq (placed : Placed table.byte entries items) :
    (table.ofType Madt.intSoOvrdType items).map table.ioapicSoAt =
      entries.filterMap MadtEntry.ovrd := by
  refine ofType_map ?_ placed
  intro entry item stored
  obtain ⟨named, length, payload⟩ := entry_stored stored
  cases entry with
  | lapic acpiId id flags => rfl
  | ioapic id rsv addr gsiBase => rfl
  | intSoOvrd busSource irqSource gsiBase flags =>
      simp only [MadtEntry.payload, ByteImage.stored_cons,
        ByteImage.stored_append, ByteImage.littleEndian_length] at payload
      obtain ⟨bus, irq, base, bits⟩ := payload
      have ten : table.byte (item + 1) = 10#8 := by
        apply BitVec.eq_of_toNat_eq
        rw [length]
        rfl
      refine (if_pos rfl).trans (congrArg some ?_)
      rw [Madt.ioapicSoAt, named, ten, bus, irq,
        dwordAt_of_stored (item + 4) base,
        wordAt_of_stored (item + 8) bits]
      rfl
  | other type payload known short =>
      refine if_neg fun same => ?_
      rw [show type = Madt.intSoOvrdType from same] at known
      exact absurd known (by decide)

theorem processors_eq (placed : Placed table.byte entries items) :
    (table.ofType Madt.lapicType items).map (fun item =>
        table.byte (item + 3)) =
      entries.filterMap MadtEntry.processor := by
  refine ofType_map ?_ placed
  intro entry item stored
  obtain ⟨-, -, payload⟩ := entry_stored stored
  cases entry with
  | lapic acpiId id flags =>
      simp only [MadtEntry.payload, ByteImage.stored_cons] at payload
      rw [show table.byte (item + 3) = id from payload.2.1]
      rfl
  | ioapic id rsv addr gsiBase => rfl
  | intSoOvrd busSource irqSource gsiBase flags => rfl
  | other type payload known short =>
      refine if_neg fun same => ?_
      rw [show type = Madt.lapicType from same] at known
      exact absurd known (by decide)

end Entries

/-! ## One table -/

section Reading

variable {header : Memory} {table : Sdt}

theorem bytes_length (table : Sdt) :
    table.bytes.length = sdtHeaderSize + table.body.length := by
  simp only [Sdt.bytes, List.length_append, List.length_cons, table.four,
    table.full, ByteImage.littleEndian_length, sdtHeaderSize]
  omega

/-- The parts of a table that is in memory. -/
theorem parts_of_stored
    (stored : ByteImage.Stored header 0 table.bytes) :
    ByteImage.Stored header 0 table.signature ∧
      ByteImage.Stored header 4
        (ByteImage.littleEndian 4 (sdtHeaderSize + table.body.length)) ∧
      ByteImage.Stored header sdtHeaderSize table.body := by
  simp only [Sdt.bytes, ByteImage.stored_append, ByteImage.stored_cons,
    ByteImage.littleEndian_length, table.four, table.full] at stored
  obtain ⟨signature, length, -, -, -, body⟩ := stored
  exact ⟨signature, length, body⟩

theorem signatureAt_eq
    (stored : ByteImage.Stored header 0 table.bytes) :
    signatureAt header = table.signature := by
  have signature := (parts_of_stored stored).1
  have four := table.four
  match table.signature, four, signature with
  | [first, second, third, fourth], _, signature =>
      simp only [ByteImage.stored_cons] at signature
      obtain ⟨found0, found1, found2, found3, -⟩ := signature
      rw [signatureAt, found0, found1, found2, found3]

/-- The length of a header whose length field is in memory. -/
theorem lengthAt_of_stored
    (stored : ByteImage.Stored header 4
      (ByteImage.littleEndian 4 (sdtHeaderSize + table.body.length))) :
    (lengthAt header).toNat = table.bytes.length := by
  rw [lengthAt, dwordAt_eq, ByteImage.field_of_stored table.fits stored,
    BitVec.toNat_ofNat, Nat.mod_eq_of_lt table.fits, bytes_length]

theorem lengthAt_toNat
    (stored : ByteImage.Stored header 0 table.bytes) :
    (lengthAt header).toNat = table.bytes.length :=
  lengthAt_of_stored (parts_of_stored stored).2.1

theorem validateChecksum_iff
    (stored : ByteImage.Stored header 0 table.bytes) :
    validateChecksum header (lengthAt header).toNat = true ↔ table.Sound := by
  rw [lengthAt_toNat stored, validateChecksum, checksum_eq,
    ByteImage.sumFrom_of_stored stored, decide_eq_true_iff, Sdt.Sound]

end Reading

/-- The table of interrupt controllers, as `parse_madt` reads it. -/
theorem parseMadt_ofBytes
    {header : Memory} {sdt : Sdt} {lapicBase flags : BitVec 32}
    {entries : List MadtEntry}
    (s : AcpiState)
    (stored : ByteImage.Stored header 0 sdt.bytes)
    (body : sdt.body = (Content.apic lapicBase flags entries).body)
    (usable : (Content.apic lapicBase flags entries).Usable) :
    ((Madt.ofBytes header).parseMadt 257 s.heap).map (fun (madt, heap) =>
        { s with madt := some madt, heap }) =
      (Content.apic lapicBase flags entries).keep s := by
  have total := lengthAt_toNat stored
  rw [bytes_length, body, Content.body, List.length_append, List.length_append,
    ByteImage.littleEndian_length, ByteImage.littleEndian_length] at total
  have inBody := (parts_of_stored stored).2.2
  rw [body, Content.body] at inBody
  simp only [ByteImage.stored_append, ByteImage.littleEndian_length] at inBody
  obtain ⟨base, -, rest⟩ := inBody
  let table := Madt.ofBytes header
  have fills : Madt.headerSize + (entries.flatMap MadtEntry.bytes).length =
      table.length.toNat := by
    change _ = (lengthAt header).toNat
    rw [total, sdtHeaderSize, Madt.headerSize]
    omega
  obtain ⟨tiled, placed⟩ :=
    @tiled_of_stored table Madt.headerSize entries rest fills
  obtain ⟨found, fewOvrds, fewLapics⟩ := usable
  have ioapics := ioapics_eq placed
  have ovrds := ovrds_eq placed
  have processors := processors_eq placed
  rw [← ioapics] at found
  rw [← ovrds, List.length_map] at fewOvrds
  rw [← processors, List.length_map] at fewLapics
  obtain ⟨ioapic, others, listed⟩ := List.exists_cons_of_ne_nil
    (mt List.map_eq_nil_iff.mpr found)
  rw [Madt.parseMadt_eq s.heap tiled listed fewOvrds fewLapics, Content.keep,
    ← ioapics, ← ovrds, ← processors, listed, List.length_map]
  rw [show Madt.dwordAt table.byte 36 = lapicBase from dwordAt_of_stored _ base]
  simp only [Option.map_bind, Option.map_map, Function.comp_def, List.map_cons,
    List.head?_cons, Option.bind_some]

variable {mem root : Memory} {s : AcpiState}

theorem parseTable_eq
    {table : FirmwareTable}
    (stored : table.In mem) :
    parseTable (mem.tableAt table.address) s = table.content.keep s := by
  have named := (signatureAt_eq stored).trans table.signature_eq
  have body := table.body_eq
  have usable := table.usable
  rw [parseTable, named]
  cases said : table.content with
  | apic lapicBase flags entries =>
      rw [said] at body usable
      rw [Content.signature, if_pos rfl]
      exact parseMadt_ofBytes s stored body usable
  | other signature body four named =>
      rw [Content.signature, if_neg named]
      rfl

/-! ## The loop -/

/-- Sound tables are read one after another. -/
theorem parseTables_sound
    {xsdt : Bool} {good : List FirmwareTable} {i : Nat}
    (more : Nat)
    (points : ∀ k (inside : k < good.length),
      tablePointer xsdt root (i + k) = good[k].address)
    (stored : ∀ table ∈ good, table.In mem)
    (sound : ∀ table ∈ good, table.sdt.Sound) :
    parseTables xsdt mem root (good.length + more) i s =
      (FirmwareTables.keepAll s good).bind
        (parseTables xsdt mem root more (i + good.length)) := by
  induction good generalizing i s with
  | nil =>
      rw [List.length_nil, Nat.zero_add, FirmwareTables.keepAll,
        Option.bind_some, Nat.add_zero]
  | cons table good inductionHypothesis =>
      obtain ⟨here, later⟩ := List.forall_mem_cons.mp stored
      obtain ⟨soundHere, soundLater⟩ := List.forall_mem_cons.mp sound
      have pointer := points 0 (Nat.succ_pos _)
      rw [Nat.add_zero, List.getElem_cons_zero] at pointer
      have rest : ∀ k (inside : k < good.length),
          tablePointer xsdt root (i + 1 + k) = good[k].address := by
        intro k inside
        rw [Nat.add_assoc, Nat.add_comm 1 k]
        exact points (k + 1) (Nat.succ_lt_succ inside)
      rw [List.length_cons, Nat.add_right_comm, parseTables, pointer]
      simp only [(validateChecksum_iff here).mpr soundHere, if_true,
        parseTable_eq here]
      rw [FirmwareTables.keepAll, Option.bind_assoc]
      refine congrArg _ (funext fun s => ?_)
      rw [inductionHypothesis rest later soundLater, Nat.add_assoc i,
        Nat.add_comm 1]

/-- The loop ends with a table whose bytes do not add up. -/
theorem parseTables_stops
    {xsdt : Bool} {header : Memory} {left i : Nat}
    (pointer : mem.tableAt (tablePointer xsdt root i) = header)
    (invalid : ¬ validateChecksum header (lengthAt header).toNat = true) :
    parseTables xsdt mem root (left + 1) i s =
      some (false, { s with log := s.log ++ [invalidTable] }) := by
  rw [parseTables, pointer]
  exact if_neg invalid

namespace FirmwareTables

variable {f : FirmwareTables}

theorem tablePointer_eq
    {i : Nat}
    (stored : f.RootIn mem)
    (inside : i < f.tables.length) :
    tablePointer f.xsdt (mem.tableAt f.address) i = f.tables[i].address := by
  have body := (parts_of_stored stored).2.2
  rw [f.root_body] at body
  have listed : i < (f.tables.map fun table => table.address.toNat).length := by
    rwa [List.length_map]
  have entry := ByteImage.stored_flatMap_littleEndian body listed
  rw [List.getElem_map] at entry
  have low := f.low f.tables[i] (List.getElem_mem inside)
  rw [tablePointer, field_eq, ByteImage.field_of_stored low entry,
    BitVec.ofNat_toNat, BitVec.setWidth_eq]

theorem body_length (f : FirmwareTables) :
    f.root.body.length = entrySize f.xsdt * f.tables.length := by
  rw [f.root_body, List.length_flatMap, List.map_map]
  simp [Function.comp_def, Nat.mul_comm]

theorem countTables_eq (stored : f.RootIn mem) :
    countTables f.xsdt (lengthAt (mem.tableAt f.address)) =
      f.tables.length := by
  have length := lengthAt_toNat stored
  have fits := f.root.fits
  have positive : 0 < entrySize f.xsdt := by
    unfold entrySize
    split
    · decide
    · decide
  rw [bytes_length] at length
  have rest : ((lengthAt (mem.tableAt f.address)).setWidth 64 -
      BitVec.ofNat 64 sdtHeaderSize).toNat = f.root.body.length := by
    rw [BitVec.toNat_sub, BitVec.toNat_setWidth, length, BitVec.toNat_ofNat]
    unfold sdtHeaderSize at fits ⊢
    omega
  rw [countTables, rest, body_length, Nat.mul_div_cancel_left _ positive]

/-- `init_acpi` with a sound root table. -/
theorem initAcpi_of_sound
    {map : MemoryMap}
    (stored : f.RootIn mem)
    (sound : f.root.Sound) :
    initAcpi { sdtAddr := f.address, xsdt := f.xsdt } mem map s =
      (parseTables f.xsdt mem (mem.tableAt f.address) f.tables.length 0
          { s with numTables := f.tables.length }).map fun (ended, s) =>
        if ended then
          { s with
            pmm := (s.pmm.reclaimStep map).1
            log := s.log ++ parsedTables :: (s.pmm.reclaimStep map).2 }
        else s := by
  have valid := (validateChecksum_iff stored).mpr sound
  rw [initAcpi]
  simp only [valid, if_true, countTables_eq stored]

/-- The tables before one that does not add up are kept, and nothing else
happens. -/
theorem initAcpi_stops
    {map : MemoryMap} {good rest : List FirmwareTable} {bad : FirmwareTable}
    (split : f.tables = good ++ bad :: rest)
    (rootStored : f.RootIn mem)
    (rootSound : f.root.Sound)
    (stored : ∀ table ∈ good, table.In mem)
    (sound : ∀ table ∈ good, table.sdt.Sound)
    (invalid : ¬ validateChecksum (mem.tableAt bad.address)
      (lengthAt (mem.tableAt bad.address)).toNat = true) :
    initAcpi { sdtAddr := f.address, xsdt := f.xsdt } mem map s =
      (keepAll { s with numTables := f.tables.length } good).map fun s =>
        { s with log := s.log ++ [invalidTable] } := by
  have length : f.tables.length = good.length + (rest.length + 1) := by
    rw [split, List.length_append, List.length_cons]
  have points : ∀ k (inside : k < good.length),
      tablePointer f.xsdt (mem.tableAt f.address) (0 + k) =
        good[k].address := by
    intro k inside
    rw [Nat.zero_add, tablePointer_eq rootStored (by omega)]
    simp only [split, List.getElem_append_left inside]
  have pointer : tablePointer f.xsdt (mem.tableAt f.address) (0 + good.length) =
      bad.address := by
    rw [Nat.zero_add, tablePointer_eq rootStored (by omega)]
    simp [split]
  rw [initAcpi_of_sound rootStored rootSound]
  conv_lhs => rw [length]
  have stops : parseTables f.xsdt mem (mem.tableAt f.address) (rest.length + 1)
      (0 + good.length) =
        fun s => some (false, { s with log := s.log ++ [invalidTable] }) :=
    funext fun s => parseTables_stops (by rw [pointer]) invalid
  rw [parseTables_sound _ points stored sound, stops, ← length,
    Option.map_bind]
  simp only [Function.comp_def, Option.map_some, Bool.false_eq_true, if_false]
  exact Option.map_eq_bind.symm

/-- All tables are in memory. -/
structure In (f : FirmwareTables) (mem : Memory) : Prop where
  /-- The root table. -/
  root : f.RootIn mem
  /-- The others. -/
  tables : ∀ table ∈ f.tables, table.In mem

/-- All tables add up, or there is a first one that does not. -/
theorem sound_or_split (tables : List FirmwareTable) :
    (tables.takeWhile FirmwareTable.isSound = tables ∧
        ∀ table ∈ tables, table.sdt.Sound) ∨
      ∃ bad rest, tables =
          tables.takeWhile FirmwareTable.isSound ++ bad :: rest ∧
        (∀ table ∈ tables.takeWhile FirmwareTable.isSound, table.sdt.Sound) ∧
        ¬ bad.sdt.Sound := by
  have sound : ∀ table ∈ tables.takeWhile FirmwareTable.isSound,
      table.sdt.Sound := by
    intro table member
    have isSound : table.isSound = true := List.mem_takeWhile_imp member
    exact of_decide_eq_true isSound
  have whole : tables.takeWhile FirmwareTable.isSound ++
      tables.dropWhile FirmwareTable.isSound = tables :=
    List.takeWhile_append_dropWhile
  cases behind : tables.dropWhile FirmwareTable.isSound with
  | nil =>
      rw [behind, List.append_nil] at whole
      exact .inl ⟨whole, whole ▸ sound⟩
  | cons bad rest =>
      rw [behind] at whole
      have head := List.head?_dropWhile_not FirmwareTable.isSound tables
      rw [behind] at head
      exact .inr ⟨bad, rest, whole.symm, sound,
        by simpa [FirmwareTable.isSound] using head⟩

/-- `init_acpi` does what it is to do. -/
theorem initAcpi_outcome
    (f : FirmwareTables) (map : MemoryMap) (s : AcpiState)
    (stored : f.In mem) :
    initAcpi { sdtAddr := f.address, xsdt := f.xsdt } mem map s =
      f.outcome map s := by
  by_cases rootSound : f.root.Sound
  swap
  · have invalid := mt (validateChecksum_iff stored.root).mp rootSound
    rw [outcome, if_neg rootSound, initAcpi]
    exact if_neg invalid
  rw [outcome, if_pos rootSound, FirmwareTables.sound]
  rcases sound_or_split f.tables with ⟨whole, sound⟩ |
    ⟨bad, rest, split, sound, wrong⟩
  · have points : ∀ k (inside : k < f.tables.length),
        tablePointer f.xsdt (mem.tableAt f.address) (0 + k) =
          f.tables[k].address := fun k inside => by
      rw [Nat.zero_add]
      exact tablePointer_eq stored.root inside
    have ended := @parseTables_sound mem (mem.tableAt f.address)
      { s with numTables := f.tables.length } f.xsdt f.tables 0 0 points
      stored.tables sound
    rw [Nat.add_zero] at ended
    rw [initAcpi_of_sound stored.root rootSound, ended, whole, Option.map_bind]
    simp only [Function.comp_def, parseTables, Option.map_some, if_true]
    exact Option.map_eq_bind.symm
  · have before : ∀ table ∈ f.tables.takeWhile FirmwareTable.isSound,
        table.In mem := fun table member =>
      stored.tables table ((List.takeWhile_prefix _).subset member)
    have here : bad.In mem := stored.tables bad (by rw [split]; simp)
    have shorter : ¬ (f.tables.takeWhile FirmwareTable.isSound).length =
        f.tables.length := by
      have length := congrArg List.length split
      rw [List.length_append, List.length_cons] at length
      omega
    rw [initAcpi_stops split stored.root rootSound before sound
      (mt (validateChecksum_iff here).mp wrong)]
    simp only [if_neg shorter]

end FirmwareTables

/-! ## The descriptor of the loader -/

theorem findRsdp_of_stored
    {tables : ConfigTables} {entry : ConfigTable} {rsdp : Rsdp}
    {f : FirmwareTables}
    (listed : tables.rsdpTable = some entry)
    (stored : ByteImage.Stored (mem.tableAt entry.vendorTable) 0 rsdp.bytes)
    (points : rsdp.PointsTo f) :
    tables.findRsdp mem =
      if rsdp.Sound then some { sdtAddr := f.address, xsdt := f.xsdt }
      else none := by
  obtain ⟨xsdt_eq, address_eq⟩ := points
  have firstLength : rsdp.first.length = 20 := by
    simp [Rsdp.first, rsdp.front_length]
  have first : ByteImage.Stored (mem.tableAt entry.vendorTable) 0
      rsdp.first := by
    rw [Rsdp.bytes] at stored
    split at stored
    · exact (ByteImage.stored_append.mp stored).1
    · exact stored
  have fields := first
  simp only [Rsdp.first, ByteImage.stored_append, ByteImage.stored_cons,
    rsdp.front_length] at fields
  obtain ⟨-, revision, rsdt⟩ := fields
  have sumFirst := ByteImage.sumFrom_of_stored first
  rw [firstLength] at sumFirst
  rw [ConfigTables.findRsdp, listed, Option.bind_some]
  simp only [validateChecksum, checksum_eq, sumFirst, decide_eq_true_eq,
    RsdpDescriptor.at, field_eq]
  rw [show (mem.tableAt entry.vendorTable) 15 = rsdp.revision from revision]
  by_cases two : rsdp.revision = 2#8
  · have bytes : rsdp.bytes = rsdp.first ++ (ByteImage.littleEndian 4 36 ++
        (ByteImage.littleEndian 8 rsdp.xsdtAddress.toNat ++ rsdp.back)) :=
      if_pos two
    have sum := ByteImage.sumFrom_of_stored stored
    have total : rsdp.bytes.length = 36 := by
      simp [bytes, firstLength, rsdp.back_length]
    rw [total] at sum
    have rest := stored
    simp only [bytes, ByteImage.stored_append, firstLength,
      ByteImage.littleEndian_length] at rest
    obtain ⟨-, length, xsdt, -⟩ := rest
    have lengthRead : ByteImage.field (mem.tableAt entry.vendorTable) 20 4 =
        36 := ByteImage.field_of_stored (by decide) length
    have xsdtRead : ByteImage.field (mem.tableAt entry.vendorTable) 24 8 =
        rsdp.xsdtAddress.toNat :=
      ByteImage.field_of_stored rsdp.xsdtAddress.isLt xsdt
    have all : ByteImage.sumFrom (mem.tableAt entry.vendorTable)
        (BitVec.ofNat 32 36).toNat = rsdp.bytes.sum := sum
    rw [lengthRead, xsdtRead, all, address_eq, xsdt_eq]
    simp only [Rsdp.Sound, if_true, BitVec.ofNat_toNat, BitVec.setWidth_eq,
      two, decide_true, ite_and]
  · have bytes : rsdp.bytes = rsdp.first := if_neg two
    have rsdtRead : ByteImage.field (mem.tableAt entry.vendorTable) 16 4 =
        rsdp.rsdtAddress.toNat :=
      ByteImage.field_of_stored rsdp.rsdtAddress.isLt rsdt
    rw [rsdtRead, address_eq, xsdt_eq]
    simp only [Rsdp.Sound, bytes, and_self, if_false, BitVec.ofNat_toNat,
      BitVec.setWidth_eq, two, decide_false]

namespace FirmwareTables

/-- On the heap of the boot, `init_acpi` returns when the root table does not add
up, or when there are blocks for all that is to be kept.  The arrays are in
memory then. -/
theorem outcome_of_booted
    (f : FirmwareTables) (map : MemoryMap)
    (booted : s.Booted) :
    ((f.outcome map s).isSome ↔ (f.root.Sound → blocksOf f.sound ≤ KernelHeap.bootRoom)) ∧
      ∀ last, f.outcome map s = some last → last.ArraysIn := by
  rw [outcome]
  by_cases rootSound : f.root.Sound
  · have counted : { s with numTables := f.tables.length }.Booted := booted
    obtain ⟨returns, arrays⟩ := keepAll_of_booted counted f.sound
    rw [if_pos rootSound, Option.isSome_map, returns]
    refine ⟨⟨fun enough _ => enough, fun enough => enough rootSound⟩, ?_⟩
    intro last ended
    obtain ⟨kept, keeps, rfl⟩ := Option.map_eq_some_iff.mp ended
    have there := arrays kept keeps
    split
    · exact there
    · exact there
  · rw [if_neg rootSound]
    refine ⟨iff_of_true rfl fun sound => absurd sound rootSound, ?_⟩
    intro last ended madt known
    obtain rfl := Option.some.inj ended
    have unset : some madt = none := known.symm.trans booted.1
    cases unset

end FirmwareTables

/-- The loader finds the root table, and the kernel reads what the firmware's tables
say, up to the first one whose bytes do not add up.  On the heap of the boot, it
returns exactly when the arrays for it take no more blocks than there are, and
then finds the arrays in memory. -/
theorem tables_found_and_read
    (tables : ConfigTables) (entry : ConfigTable) (rsdp : Rsdp)
    (f : FirmwareTables) (early late : Memory) (map : MemoryMap)
    (s : AcpiState)
    (listed : tables.rsdpTable = some entry)
    (rsdpStored : ByteImage.Stored (early.tableAt entry.vendorTable) 0
      rsdp.bytes)
    (points : rsdp.PointsTo f)
    (stored : f.In late) :
    (tables.findRsdp early).bind (fun acpi => initAcpi acpi late map s) =
        (if rsdp.Sound then f.outcome map s else none) ∧
      (s.Booted →
        ((f.outcome map s).isSome ↔
          (f.root.Sound → blocksOf f.sound ≤ KernelHeap.bootRoom)) ∧
        ∀ last, f.outcome map s = some last → last.ArraysIn) := by
  refine ⟨?_, f.outcome_of_booted map⟩
  rw [findRsdp_of_stored listed rsdpStored points]
  split
  · exact f.initAcpi_outcome map s stored
  · rfl

/-! ## Damaged tables -/

/-- Another byte outside the length field makes the sum wrong. -/
theorem not_validateChecksum_of_damaged
    {header : Memory} {table : Sdt} {i : Nat} {other : BitVec 8}
    (sound : table.Sound)
    (inside : i < table.bytes.length)
    (outside : i < 4 ∨ 8 ≤ i)
    (different : other ≠ table.bytes[i])
    (stored : ByteImage.Stored header 0 (table.bytes.set i other)) :
    ¬ validateChecksum header (lengthAt header).toNat = true := by
  -- The length is read as from the table before.
  have length := lengthAt_toNat (stored.repaired inside)
  have same : lengthAt (Function.update header i table.bytes[i]) =
      lengthAt header := by
    simp only [lengthAt, Madt.dwordAt]
    rw [Function.update_of_ne (by omega), Function.update_of_ne (by omega),
      Function.update_of_ne (by omega), Function.update_of_ne (by omega)]
  rw [same] at length
  have sum := ByteImage.sumFrom_of_stored stored
  rw [List.length_set] at sum
  rw [length, validateChecksum, checksum_eq, sum, decide_eq_true_iff]
  have changed := ByteImage.sum_set_ne inside different
  rwa [show table.bytes.sum = 0#8 from sound] at changed

/-- One changed byte of a table, outside its length field, is found: with the root
table nothing is read, with another table what comes before it, and no memory is
given back.  On the heap of the boot, the tables before it are read to the end
exactly when their arrays take no more blocks than there are. -/
theorem damage_found
    (f : FirmwareTables) (mem : Memory) (map : MemoryMap) (s : AcpiState)
    (rootSound : f.root.Sound)
    (sound : ∀ table ∈ f.tables, table.sdt.Sound)
    (i : Nat) (other : BitVec 8)
    (outside : i < 4 ∨ 8 ≤ i) :
    ((inside : i < f.root.bytes.length) → other ≠ f.root.bytes[i] →
      ByteImage.Stored (mem.tableAt f.address) 0 (f.root.bytes.set i other) →
      initAcpi { sdtAddr := f.address, xsdt := f.xsdt } mem map s =
        some { s with log := s.log ++ [invalidSdt f.xsdt] }) ∧
    ∀ good bad rest, f.tables = good ++ bad :: rest → f.RootIn mem →
      (∀ table ∈ good, table.In mem) →
      (inside : i < bad.sdt.bytes.length) → other ≠ bad.sdt.bytes[i] →
      ByteImage.Stored (mem.tableAt bad.address) 0
        (bad.sdt.bytes.set i other) →
      initAcpi { sdtAddr := f.address, xsdt := f.xsdt } mem map s =
          ((FirmwareTables.keepAll { s with numTables := f.tables.length }
            good).map fun s => { s with log := s.log ++ [invalidTable] }) ∧
        (s.Booted →
          ((FirmwareTables.keepAll { s with numTables := f.tables.length }
            good).isSome ↔ blocksOf good ≤ KernelHeap.bootRoom)) := by
  constructor
  · intro inside different stored
    have invalid := not_validateChecksum_of_damaged rootSound inside outside
      different stored
    rw [initAcpi]
    exact if_neg invalid
  · intro good bad rest split root before inside different stored
    have member : ∀ table ∈ good ++ bad :: rest, table.sdt.Sound :=
      split ▸ sound
    have invalid := not_validateChecksum_of_damaged (member bad (by simp))
      inside outside different stored
    refine ⟨FirmwareTables.initAcpi_stops split root rootSound before
      (fun table listed => member table (List.mem_append_left _ listed))
      invalid, fun booted => ?_⟩
    have counted : { s with numTables := f.tables.length }.Booted := booted
    exact (FirmwareTables.keepAll_of_booted counted good).1

/-! ## A firmware -/

/-- Two processors, an I/O APIC, and the timer's interrupt moved to line 2. -/
def sampleEntries : List MadtEntry :=
  [.lapic 0#8 0#8 1#32, .lapic 1#8 1#8 1#32,
    .ioapic 2#8 0#8 0xFEC00000#32 0#32, .intSoOvrd 0#8 0#8 2#32 0#16]

/-- What the table of interrupt controllers says. -/
def sampleContent : Content := .apic 0xFEE00000#32 1#32 sampleEntries

theorem sampleContent_usable : sampleContent.Usable := by
  refine ⟨?_, by decide, by decide⟩
  exact List.cons_ne_nil _ _

/-- A table without a body. -/
def plainSdt (checksum : BitVec 8) : Sdt where
  signature := [0x46#8, 0x41#8, 0x43#8, 0x50#8]
  revision := 6#8
  checksum := checksum
  origin := List.replicate 26 0x20#8
  body := []
  four := rfl
  full := rfl
  fits := by decide

/-- The table of interrupt controllers. -/
def madtSdt (checksum : BitVec 8) : Sdt where
  signature := apicSignature
  revision := 5#8
  checksum := checksum
  origin := List.replicate 26 0x20#8
  body := sampleContent.body
  four := rfl
  full := rfl
  fits := by decide

/-- The root table, with pointers to both. -/
def rootSdt (checksum : BitVec 8) : Sdt where
  signature := [0x58#8, 0x53#8, 0x44#8, 0x54#8]
  revision := 1#8
  checksum := checksum
  origin := List.replicate 26 0x20#8
  body := [0x8000, 0x9000].flatMap (ByteImage.littleEndian 8)
  four := rfl
  full := rfl
  fits := by decide

/-- The descriptor of the loader. -/
def sampleRsdp : Rsdp where
  front := List.replicate 14 0x20#8 ++ [0x3E#8]
  revision := 2#8
  rsdtAddress := 0#32
  xsdtAddress := 0x7000#64
  back := [108#8, 0#8, 0#8, 0#8]
  front_length := rfl
  back_length := rfl

theorem plainSdt_named : (plainSdt 124#8).signature ≠ apicSignature := by
  decide

/-- The tables of the firmware. -/
def sampleFirmware : FirmwareTables where
  xsdt := true
  address := 0x7000#64
  root := rootSdt 56#8
  tables :=
    [{ address := 0x8000#64
       sdt := plainSdt 124#8
       content := .other (plainSdt 124#8).signature [] rfl plainSdt_named
       signature_eq := rfl
       body_eq := rfl
       usable := trivial },
      { address := 0x9000#64
        sdt := madtSdt 126#8
        content := sampleContent
        signature_eq := rfl
        body_eq := rfl
        usable := sampleContent_usable }]
  root_body := rfl
  low := by decide

/-- Memory with these tables. -/
def sampleMemory : Memory := fun address =>
  if address < 0x7000 then sampleRsdp.bytes.getD (address - 0x6000) 0#8
  else if address < 0x8000 then (rootSdt 56#8).bytes.getD (address - 0x7000) 0#8
  else if address < 0x9000 then
    (plainSdt 124#8).bytes.getD (address - 0x8000) 0#8
  else (madtSdt 126#8).bytes.getD (address - 0x9000) 0#8

/-- One region of memory holds the tables. -/
def sampleAcpiMap : MemoryMap where
  descAt _ := { type := 9#32, physicalStart := 0x6000#64, count := 4#64 }
  mmapSize := 48
  mmapDescSize := 48

/-- The page of the heap behind its `heap_t`. -/
def sampleHeapRegion : Bitmap.Region where
  base := 0xFFFF800000001030
  size := 4048
  bsize := 16
  bsize_pos := by decide
  above_null := by decide
  fits := by decide

/-- Before `init_acpi`, with every frame in use. -/
def sampleAcpiState : AcpiState where
  numTables := 0
  madt := none
  heap := .fresh sampleHeapRegion fun _ => 0#8
  pmm := ⟨fun _ => Pmm.bitmapRowFull, 1, 64⟩
  log := []

theorem sampleAcpiState_booted : sampleAcpiState.Booted := by
  have zero : ∀ block,
      Bitmap.getBm (fun _ => 0#8) sampleHeapRegion.base block = 0#8 :=
    fun block => BitVec.zero_and
  exact ⟨rfl, sampleHeapRegion, fun _ => 0#8, rfl, rfl,
    ⟨fun block _ => .inl (zero block), fun block _ _ => zero block⟩, rfl⟩

theorem tables_found_and_read_sample :
    ∃ last, (ConfigTables.findRsdp ⟨[⟨7#128, 0x6000#64⟩], 7#128, 8#128⟩
        sampleMemory).bind (fun acpi =>
          initAcpi acpi sampleMemory sampleAcpiMap sampleAcpiState) =
        some last ∧
      last.madt.map ParsedMadt.numCpus = some 2 ∧
      last.log = [parsedTables] ∧ ¬ last.pmm.Used 8 ∧ last.ArraysIn := by
  have tables : sampleFirmware.In sampleMemory := by
    exact ⟨by decide +kernel, by decide +kernel⟩
  obtain ⟨found, atBoot⟩ := tables_found_and_read
    ⟨[⟨7#128, 0x6000#64⟩], 7#128, 8#128⟩ ⟨7#128, 0x6000#64⟩ sampleRsdp
    sampleFirmware sampleMemory sampleMemory sampleAcpiMap sampleAcpiState
    rfl (by decide +kernel) ⟨rfl, rfl⟩ tables
  obtain ⟨returns, arrays⟩ := atBoot sampleAcpiState_booted
  obtain ⟨last, ended⟩ := Option.isSome_iff_exists.mp
    (returns.mpr fun _ => by decide +kernel)
  have observed : (sampleFirmware.outcome sampleAcpiMap sampleAcpiState).map
      (fun last => (last.madt.map ParsedMadt.numCpus, last.log,
        decide (last.pmm.Used 8))) = some (some 2, [parsedTables], false) := by
    decide +kernel
  rw [ended, Option.map_some, Option.some.injEq, Prod.mk.injEq, Prod.mk.injEq,
    decide_eq_false_iff_not] at observed
  obtain ⟨cpus, log, given⟩ := observed
  refine ⟨last, ?_, cpus, log, given, arrays last ended⟩
  exact found.trans ((if_pos (by decide +kernel)).trans ended)

theorem damage_found_sample :
    ∃ mem, initAcpi { sdtAddr := 0x7000#64, xsdt := true } mem sampleAcpiMap
        sampleAcpiState =
      some
        { sampleAcpiState with
          numTables := 2
          log := [invalidTable] } := by
  let damaged := fun address =>
    if address = 0x9000 + 50 then 0xFF#8 else sampleMemory address
  refine ⟨damaged, ?_⟩
  have found := (damage_found sampleFirmware damaged sampleAcpiMap
    sampleAcpiState (by decide +kernel) (by decide +kernel) 50 0xFF#8
    (by decide)).2 (sampleFirmware.tables.take 1) sampleFirmware.tables[1] []
    rfl (by decide +kernel) (by decide +kernel) (by decide +kernel)
    (by decide +kernel) (by decide +kernel)
  exact found.1

end Acpi
end PivotOs
