import PivotOs.Acpi.Walk
import PivotOs.Acpi.Reclaim
import PivotOs.Loader.Discovery
import PivotOs.Library.ByteImage

/-!
# `init_acpi`

The loader hands over the address of the root table.  `init_acpi` goes through the
tables that it points to, takes what it needs from the description of the interrupt
controllers, and gives the memory of the tables back, unless the bytes of one of
them do not add up.  What it takes goes to the heap.
-/

namespace PivotOs

/-- What `init_acpi` sets. -/
structure AcpiState where
  /-- `KACPI.num_tables`. -/
  numTables : Nat
  /-- What `parse_madt` stored last. -/
  madt : Option ParsedMadt
  /-- The heap.  Its bytes are apart from those of the tables. -/
  heap : KernelHeap
  /-- The frame bitmap. -/
  pmm : Pmm
  /-- What is logged. -/
  log : List LogLine

namespace Acpi

/-- `sizeof(sdt_header_t)`. -/
def sdtHeaderSize : Nat := 36

/-- `header.length`. -/
def lengthAt (header : Memory) : BitVec 32 := Madt.dwordAt header 4

/-- `header.signature`. -/
def signatureAt (header : Memory) : List (BitVec 8) :=
  [header 0, header 1, header 2, header 3]

/-- The bytes of `"APIC"`. -/
def apicSignature : List (BitVec 8) := [0x41#8, 0x50#8, 0x49#8, 0x43#8]

/-- `sizeof(tables[0])`. -/
def entrySize (xsdt : Bool) : Nat := if xsdt then 8 else 4

/-- `tables[i]`. -/
def tablePointer (xsdt : Bool) (root : Memory) (i : Nat) : Word :=
  BitVec.ofNat 64
    (root.field (sdtHeaderSize + entrySize xsdt * i) (entrySize xsdt))

/-- The error about the root table. -/
def invalidSdt (xsdt : Bool) : LogLine where
  level := .error
  target := "ACPI"
  text := if xsdt then "Found invalid XSDT table" else "Found invalid RSDT table"

/-- The error about another table. -/
def invalidTable : LogLine where
  level := .error
  target := "ACPI"
  text := "Detected invalid table"

/-- The message about the end. -/
def parsedTables : LogLine where
  level := .info
  target := "ACPI"
  text := "Parsed ACPI tables"

/-- `parse_table`. -/
def parseTable (header : Memory) (s : AcpiState) : Option AcpiState :=
  if signatureAt header = apicSignature then
    ((Madt.ofBytes header).parseMadt 257 s.heap).map fun (madt, heap) =>
      { s with madt := some madt, heap }
  else some s

/-- The loop of `init_acpi` from table `i` on, and whether it came to its end. -/
def parseTables (xsdt : Bool) (mem root : Memory) :
    (left i : Nat) → AcpiState → Option (Bool × AcpiState)
  | 0, _, s => some (true, s)
  | left + 1, i, s =>
      let header := mem.tableAt (tablePointer xsdt root i)
      if validateChecksum header (lengthAt header).toNat then
        (parseTable header s).bind (parseTables xsdt mem root left (i + 1))
      else some (false, { s with log := s.log ++ [invalidTable] })

/-- The number of entries of the root table.  The size of the header is taken off in
64 bits. -/
def countTables (xsdt : Bool) (length : BitVec 32) : Nat :=
  (length.setWidth 64 - BitVec.ofNat 64 sdtHeaderSize).toNat / entrySize xsdt

/-- `init_acpi`. -/
def initAcpi (acpi : AcpiInfo) (mem : Memory) (map : MemoryMap)
    (s : AcpiState) : Option AcpiState :=
  let root := mem.tableAt acpi.sdtAddr
  if validateChecksum root (lengthAt root).toNat then
    let numTables := countTables acpi.xsdt (lengthAt root)
    (parseTables acpi.xsdt mem root numTables 0
        { s with numTables := numTables }).map fun (ended, s) =>
      if ended then
        let reclaimed := s.pmm.reclaimStep map
        { s with
          pmm := reclaimed.1
          log := s.log ++ parsedTables :: reclaimed.2 }
      else s
  else some { s with log := s.log ++ [invalidSdt acpi.xsdt] }

/-! ## Tables as the firmware lays them out -/

/-- An entry of the table of interrupt controllers. -/
inductive MadtEntry
  /-- `lapic_t`. -/
  | lapic (acpiId id : BitVec 8) (flags : BitVec 32)
  /-- `ioapic_t`. -/
  | ioapic (id rsv : BitVec 8) (addr gsiBase : BitVec 32)
  /-- `ioapic_so_t`. -/
  | intSoOvrd (busSource irqSource : BitVec 8) (gsiBase : BitVec 32)
      (flags : BitVec 16)
  /-- An entry of another type. -/
  | other (type : BitVec 8) (payload : List (BitVec 8))
      (known : 2 < type.toNat) (short : payload.length < 254)

namespace MadtEntry

/-- The type. -/
def type : MadtEntry → BitVec 8
  | lapic _ _ _ => Madt.lapicType
  | ioapic _ _ _ _ => Madt.ioapicType
  | intSoOvrd _ _ _ _ => Madt.intSoOvrdType
  | other type _ _ _ => type

/-- What comes behind the type and the length. -/
def payload : MadtEntry → List (BitVec 8)
  | lapic acpiId id flags =>
      acpiId :: id :: ByteImage.littleEndian 4 flags.toNat
  | ioapic id rsv addr gsiBase =>
      id :: rsv :: (ByteImage.littleEndian 4 addr.toNat ++
        ByteImage.littleEndian 4 gsiBase.toNat)
  | intSoOvrd busSource irqSource gsiBase flags =>
      busSource :: irqSource :: (ByteImage.littleEndian 4 gsiBase.toNat ++
        ByteImage.littleEndian 2 flags.toNat)
  | other _ payload _ _ => payload

/-- The bytes of the entry. -/
def bytes (entry : MadtEntry) : List (BitVec 8) :=
  entry.type :: BitVec.ofNat 8 (entry.payload.length + 2) :: entry.payload

/-- The override in it. -/
def ovrd : MadtEntry → Option IoapicSo
  | intSoOvrd busSource irqSource gsiBase flags =>
      some
        { type := Madt.intSoOvrdType
          length := 10#8
          busSource := busSource
          irqSource := irqSource
          gsiBase := gsiBase
          flags := flags }
  | _ => none

/-- The address and the first interrupt of the I/O APIC in it. -/
def controller : MadtEntry → Option (BitVec 32 × BitVec 32)
  | ioapic _ _ addr gsiBase => some (addr, gsiBase)
  | _ => none

/-- The identifier of the processor in it. -/
def processor : MadtEntry → Option (BitVec 8)
  | lapic _ id _ => some id
  | _ => none

end MadtEntry

/-- What a table says. -/
inductive Content
  /-- `madt_t` and its entries. -/
  | apic (lapicBase flags : BitVec 32) (entries : List MadtEntry)
  /-- Another table. -/
  | other (signature body : List (BitVec 8))
      (four : signature.length = 4) (named : signature ≠ apicSignature)

namespace Content

/-- The signature. -/
def signature : Content → List (BitVec 8)
  | apic _ _ _ => apicSignature
  | other signature _ _ _ => signature

/-- What comes behind the header. -/
def body : Content → List (BitVec 8)
  | apic lapicBase flags entries =>
      ByteImage.littleEndian 4 lapicBase.toNat ++
        (ByteImage.littleEndian 4 flags.toNat ++
          entries.flatMap MadtEntry.bytes)
  | other _ body _ _ => body

/-- What the kernel is to keep of it: the first I/O APIC, all overrides and the
number of processors, with arrays on the heap for the overrides and for the data
of the processors.  It faults where the heap has no room. -/
def keep (s : AcpiState) : Content → Option AcpiState
  | apic lapicBase _ entries =>
      ((entries.filterMap MadtEntry.controller).head?).bind fun controller =>
        let ovrds := entries.filterMap MadtEntry.ovrd
        let numCpus := (entries.filterMap MadtEntry.processor).length
        (s.heap.array (ovrds.flatMap IoapicSo.bytes)).bind
          fun (ovrdsPtr, heap) =>
            (heap.array (Madt.blankCpus numCpus)).map fun (kcpus, heap) =>
              { s with
                madt := some
                  { lapicAddr := lapicBase.setWidth 64
                    ioapicAddr := controller.1.setWidth 64
                    gsiBase := controller.2
                    ovrdsPtr
                    ovrds
                    numCpus
                    kcpus }
                heap }
  | other _ _ _ _ => some s

/-- There is an I/O APIC, and entries can be counted in a byte. -/
def Usable : Content → Prop
  | apic _ _ entries =>
      entries.filterMap MadtEntry.controller ≠ [] ∧
        (entries.filterMap MadtEntry.ovrd).length < 256 ∧
        (entries.filterMap MadtEntry.processor).length < 256
  | other _ _ _ _ => True

end Content

/-- A table with its header.  The sum may be right or wrong. -/
structure Sdt where
  /-- `signature`. -/
  signature : List (BitVec 8)
  /-- `revision`. -/
  revision : BitVec 8
  /-- `checksum`. -/
  checksum : BitVec 8
  /-- `oemid` to `creator_revision`. -/
  origin : List (BitVec 8)
  /-- What comes behind the header. -/
  body : List (BitVec 8)
  /-- The signature has four bytes. -/
  four : signature.length = 4
  /-- The header has 36. -/
  full : origin.length = 26
  /-- The length fits. -/
  fits : sdtHeaderSize + body.length < 2 ^ 32

/-- The bytes of the table. -/
def Sdt.bytes (table : Sdt) : List (BitVec 8) :=
  table.signature ++
    (ByteImage.littleEndian 4 (sdtHeaderSize + table.body.length) ++
      (table.revision :: table.checksum :: (table.origin ++ table.body)))

/-- The bytes add up to zero. -/
def Sdt.Sound (table : Sdt) : Prop := table.bytes.sum = 0#8

instance (table : Sdt) : Decidable table.Sound :=
  inferInstanceAs (Decidable (_ = _))

/-- A table in memory, with what it says. -/
structure FirmwareTable where
  /-- Where it is. -/
  address : Word
  /-- Its bytes. -/
  sdt : Sdt
  /-- What it says. -/
  content : Content
  /-- It has the right name. -/
  signature_eq : sdt.signature = content.signature
  /-- It has the right body. -/
  body_eq : sdt.body = content.body
  /-- The kernel can use it. -/
  usable : content.Usable

/-- All tables of a firmware. -/
structure FirmwareTables where
  /-- The pointers have eight bytes, not four. -/
  xsdt : Bool
  /-- Where the root table is. -/
  address : Word
  /-- The root table. -/
  root : Sdt
  /-- The other tables. -/
  tables : List FirmwareTable
  /-- The root table points to the others. -/
  root_body : root.body = (tables.map fun table => table.address.toNat).flatMap
    (ByteImage.littleEndian (entrySize xsdt))
  /-- The pointers are long enough. -/
  low : ∀ table ∈ tables, table.address.toNat < 256 ^ entrySize xsdt

/-- Its bytes add up. -/
def FirmwareTable.isSound (table : FirmwareTable) : Bool :=
  decide table.sdt.Sound

/-- The table is in memory. -/
def FirmwareTable.In (mem : Memory) (table : FirmwareTable) : Prop :=
  ByteImage.Stored (mem.tableAt table.address) 0 table.sdt.bytes

instance (mem : Memory) (table : FirmwareTable) : Decidable (table.In mem) :=
  inferInstanceAs (Decidable (ByteImage.Stored _ _ _))

namespace FirmwareTables

/-- The root table is in memory. -/
def RootIn (f : FirmwareTables) (mem : Memory) : Prop :=
  ByteImage.Stored (mem.tableAt f.address) 0 f.root.bytes

instance (f : FirmwareTables) (mem : Memory) : Decidable (f.RootIn mem) :=
  inferInstanceAs (Decidable (ByteImage.Stored _ _ _))

/-- What is kept of some tables, one after another. -/
def keepAll : AcpiState → List FirmwareTable → Option AcpiState
  | s, [] => some s
  | s, table :: tables =>
      (table.content.keep s).bind fun s => keepAll s tables

/-- The tables before the first one whose bytes do not add up. -/
def sound (f : FirmwareTables) : List FirmwareTable :=
  f.tables.takeWhile FirmwareTable.isSound

/-- What `init_acpi` is to do: it goes by the tables before the first one whose
bytes do not add up, and gives the memory back when there is none.  It faults
where the heap has no room for what is to be kept. -/
def outcome (f : FirmwareTables) (map : MemoryMap) (s : AcpiState) :
    Option AcpiState :=
  if f.root.Sound then
    (keepAll { s with numTables := f.tables.length } f.sound).map fun s =>
      if f.sound.length = f.tables.length then
        { s with
          pmm := (s.pmm.reclaimStep map).1
          log := s.log ++ parsedTables :: (s.pmm.reclaimStep map).2 }
      else { s with log := s.log ++ [invalidTable] }
  else some { s with log := s.log ++ [invalidSdt f.xsdt] }

end FirmwareTables

/-! ## The descriptor that the loader finds -/

/-- `rsdp_descriptor_t`. -/
structure Rsdp where
  /-- `signature`, `checksum` and `oemid`. -/
  front : List (BitVec 8)
  /-- `revision`. -/
  revision : BitVec 8
  /-- `rsdt_address`. -/
  rsdtAddress : BitVec 32
  /-- `xsdt_address`. -/
  xsdtAddress : Word
  /-- `extended_checksum` and `rsv`. -/
  back : List (BitVec 8)
  /-- The first fields have 15 bytes. -/
  front_length : front.length = 15
  /-- The last fields have four. -/
  back_length : back.length = 4

namespace Rsdp

/-- The fields that all revisions have. -/
def first (rsdp : Rsdp) : List (BitVec 8) :=
  rsdp.front ++
    rsdp.revision :: ByteImage.littleEndian 4 rsdp.rsdtAddress.toNat

/-- The bytes of the descriptor. -/
def bytes (rsdp : Rsdp) : List (BitVec 8) :=
  if rsdp.revision = 2#8 then
    rsdp.first ++ (ByteImage.littleEndian 4 36 ++
      (ByteImage.littleEndian 8 rsdp.xsdtAddress.toNat ++ rsdp.back))
  else rsdp.first

/-- The bytes add up to zero, those of the first fields too. -/
def Sound (rsdp : Rsdp) : Prop :=
  rsdp.first.sum = 0#8 ∧ rsdp.bytes.sum = 0#8

instance (rsdp : Rsdp) : Decidable rsdp.Sound :=
  inferInstanceAs (Decidable (_ ∧ _))

/-- It points to the root table of these tables. -/
def PointsTo (rsdp : Rsdp) (f : FirmwareTables) : Prop :=
  f.xsdt = decide (rsdp.revision = 2#8) ∧
    f.address =
      if rsdp.revision = 2#8 then rsdp.xsdtAddress
      else rsdp.rsdtAddress.setWidth 64

end Rsdp

end Acpi
end PivotOs
