import PivotOs.Acpi.Walk
import PivotOs.Loader.LoadKernel

/-!
# What the loader looks up

`boot/graphics.c` and `boot/acpi.c` ask the firmware for a screen and for the
root of the ACPI tables.  The first video mode of the right size is set, unless
an earlier one cannot be queried.  The table for ACPI 2.0 is preferred, and when
it is not valid the older one is not tried.
-/

namespace PivotOs

/-- A call of the firmware that has to succeed. -/
def Boot.called (services : BootServices) (s : Boot) : Option Boot :=
  match services.status s.calls with
  | .success => some { s with calls := s.calls + 1 }
  | .error => none

/-! ## The screen -/

/-- `EFI_GRAPHICS_OUTPUT_MODE_INFORMATION`. -/
structure ModeInfo where
  /-- `HorizontalResolution`. -/
  horizontalResolution : BitVec 32
  /-- `VerticalResolution`. -/
  verticalResolution : BitVec 32
  /-- `PixelFormat`. -/
  pixelFormat : Nat
  /-- `PixelsPerScanLine`. -/
  pixelsPerScanLine : BitVec 32
  deriving DecidableEq

/-- `EFI_GRAPHICS_OUTPUT_PROTOCOL`. -/
structure GraphicsOutput where
  /-- `Mode->MaxMode`. -/
  maxMode : BitVec 32
  /-- What `QueryMode` says about a mode. -/
  queryMode : Nat → ModeInfo
  /-- `Mode->Info` after `SetMode`. -/
  info : Nat → ModeInfo
  /-- `Mode->FrameBufferBase` after `SetMode`. -/
  frameBufferBase : Nat → Word

/-- `kinfo.fb`. -/
structure FbInfo where
  /-- `buffer`. -/
  buffer : Word
  /-- `horizontal_res`. -/
  horizontalRes : BitVec 32
  /-- `vertical_res`. -/
  verticalRes : BitVec 32
  /-- `pixels_per_scanline`. -/
  pixelsPerScanline : BitVec 32
  /-- `bpp`. -/
  bpp : BitVec 8
  deriving DecidableEq

/-- `PixelBlueGreenRedReserved8BitPerColor`. -/
def pixelBlueGreenRed : Nat := 1

/-- The mode that `ConfigureGraphics` looks for. -/
def ModeInfo.Target (info : ModeInfo) : Prop :=
  info.horizontalResolution = 1024#32 ∧ info.verticalResolution = 768#32 ∧
    info.pixelFormat = pixelBlueGreenRed

instance (info : ModeInfo) : Decidable info.Target :=
  inferInstanceAs (Decidable (_ ∧ _))

/-- The screen is that of the first mode of the right kind. -/
def GraphicsOutput.Chooses (gop : GraphicsOutput) (fb : FbInfo) : Prop :=
  ∃ mode, mode < gop.maxMode.toNat ∧ (gop.queryMode mode).Target ∧
    (∀ other, other < mode → ¬ (gop.queryMode other).Target) ∧
    fb =
      { buffer := gop.frameBufferBase mode
        horizontalRes := (gop.info mode).horizontalResolution
        verticalRes := (gop.info mode).verticalResolution
        pixelsPerScanline := (gop.info mode).pixelsPerScanLine
        bpp := 4#8 }

namespace Boot

/-- The loop of `FindVideoMode`, from a mode on. -/
def findVideoMode (services : BootServices) (gop : GraphicsOutput) :
    (left i : Nat) → Boot → Option (Nat × Boot)
  | 0, _, _ => none
  | left + 1, i, s =>
      -- `QueryMode`
      (s.called services).bind fun s =>
        if (gop.queryMode i).Target then some (i, s)
        else findVideoMode services gop left (i + 1) s

/-- `ConfigureGraphics`. -/
def configureGraphics (services : BootServices) (gop : GraphicsOutput)
    (s : Boot) : Option (FbInfo × Boot) :=
  -- `LocateProtocol`
  (s.called services).bind fun s =>
  (findVideoMode services gop gop.maxMode.toNat 0 s).bind fun (mode, s) =>
  -- `ClearScreen` and `SetMode`
  (s.called services).bind fun s =>
  (s.called services).map fun s =>
    ({ buffer := gop.frameBufferBase mode
       horizontalRes := (gop.info mode).horizontalResolution
       verticalRes := (gop.info mode).verticalResolution
       pixelsPerScanline := (gop.info mode).pixelsPerScanLine
       bpp := 4#8 }, s)

end Boot

/-! ## The root of the ACPI tables -/

/-- An entry of `ConfigurationTable`. -/
structure ConfigTable where
  /-- `VendorGuid`. -/
  vendorGuid : BitVec 128
  /-- `VendorTable`. -/
  vendorTable : Word

/-- `kinfo.acpi`, as far as the loader sets it. -/
structure AcpiInfo where
  /-- `sdt_addr`. -/
  sdtAddr : Word
  /-- `xsdt`. -/
  xsdt : Bool
  deriving DecidableEq

/-- The table at an address. -/
def Memory.tableAt (mem : Memory) (address : Word) : Memory :=
  fun i => mem (address + BitVec.ofNat 64 i).toNat

/-- `rsdp_descriptor_t`, as far as it is read. -/
structure RsdpDescriptor where
  /-- `revision`. -/
  revision : BitVec 8
  /-- `rsdt_address`. -/
  rsdtAddress : BitVec 32
  /-- `length`. -/
  length : BitVec 32
  /-- `xsdt_address`. -/
  xsdtAddress : Word

/-- The descriptor in these bytes. -/
def RsdpDescriptor.at (table : Memory) : RsdpDescriptor where
  revision := table 15
  rsdtAddress := BitVec.ofNat 32 (table.field 16 4)
  length := BitVec.ofNat 32 (table.field 20 4)
  xsdtAddress := BitVec.ofNat 64 (table.field 24 8)

/-- The tables of the firmware, with the two identifiers that its headers give
for those of ACPI. -/
structure ConfigTables where
  /-- `ConfigurationTable`. -/
  entries : List ConfigTable
  /-- `ACPI_20_TABLE_GUID`. -/
  acpi20 : BitVec 128
  /-- `ACPI_TABLE_GUID`. -/
  acpi10 : BitVec 128

namespace ConfigTables

/-- `FindGuid`, without an index for -1. -/
def findGuid (tables : ConfigTables) (tableGuid : BitVec 128) : Option Nat :=
  tables.entries.findIdx? fun entry => entry.vendorGuid = tableGuid

/-- The table that `FindRSDP` goes by. -/
def rsdpTable (tables : ConfigTables) : Option ConfigTable :=
  match tables.findGuid tables.acpi20 with
  | some index => tables.entries[index]?
  | none =>
      (tables.findGuid tables.acpi10).bind fun index => tables.entries[index]?

/-- `FindRSDP`.  `ValidateTable` forms the sum that `validate_checksum`
forms. -/
def findRsdp (tables : ConfigTables) (mem : Memory) : Option AcpiInfo :=
  tables.rsdpTable.bind fun entry =>
    let tableBytes := mem.tableAt entry.vendorTable
    let rsdp := RsdpDescriptor.at tableBytes
    if Acpi.validateChecksum tableBytes 20 then
      if rsdp.revision = 2#8 then
        if Acpi.validateChecksum tableBytes rsdp.length.toNat then
          some { sdtAddr := rsdp.xsdtAddress, xsdt := true }
        else none
      else some { sdtAddr := rsdp.rsdtAddress.setWidth 64, xsdt := false }
    else none

end ConfigTables

/-! ## What was found -/

namespace Boot

variable {services : BootServices} {gop : GraphicsOutput} {s next : Boot}

/-- A call that succeeds changes the number of calls only. -/
theorem eq_of_called (ran : s.called services = some next) :
    next = { s with calls := s.calls + 1 } := by
  rw [called] at ran
  cases answer : services.status s.calls with
  | success =>
      rw [answer] at ran
      exact (Option.some.inj ran).symm
  | error =>
      rw [answer] at ran
      cases ran

/-- Calls made are the only difference. -/
def Called (s next : Boot) : Prop := ∃ calls, next = { s with calls := calls }

@[refl] theorem Called.refl (s : Boot) : Called s s := ⟨s.calls, rfl⟩

theorem Called.trans
    {middle : Boot}
    (first : Called s middle)
    (second : Called middle next) :
    Called s next := by
  obtain ⟨_, rfl⟩ := first
  obtain ⟨calls, rfl⟩ := second
  exact ⟨calls, rfl⟩

theorem called_of_eq_some (ran : s.called services = some next) :
    Called s next := ⟨_, eq_of_called ran⟩

/-- `FindVideoMode` returns the first mode of the right kind. -/
theorem findVideoMode_spec
    {left i mode : Nat}
    (ran : findVideoMode services gop left i s = some (mode, next)) :
    Called s next ∧ i ≤ mode ∧ mode < i + left ∧
      (gop.queryMode mode).Target ∧
        ∀ other, i ≤ other → other < mode →
          ¬ (gop.queryMode other).Target := by
  induction left generalizing i s with
  | zero => cases ran
  | succ left inductionHypothesis =>
      obtain ⟨middle, queried, rest⟩ := Option.bind_eq_some_iff.mp ran
      have before := called_of_eq_some queried
      split at rest
      · next target =>
          cases rest
          exact ⟨before, le_rfl, by omega, target, fun _ _ _ => by omega⟩
      · next other =>
          obtain ⟨after, above, below, target, first⟩ := inductionHypothesis rest
          refine ⟨before.trans after, by omega, by omega, target, ?_⟩
          intro earlier from_ upTo
          rcases Nat.eq_or_lt_of_le from_ with rfl | behind
          · exact other
          · exact first earlier behind upTo

theorem configureGraphics_spec
    {fb : FbInfo}
    (ran : configureGraphics services gop s = some (fb, next)) :
    Called s next ∧ gop.Chooses fb := by
  obtain ⟨located, call1, ran⟩ := Option.bind_eq_some_iff.mp ran
  obtain ⟨⟨mode, found⟩, search, ran⟩ := Option.bind_eq_some_iff.mp ran
  obtain ⟨cleared, call2, ran⟩ := Option.bind_eq_some_iff.mp ran
  obtain ⟨last, call3, eq⟩ := Option.map_eq_some_iff.mp ran
  obtain ⟨rfl, rfl⟩ := Prod.mk.inj eq
  obtain ⟨searched, -, below, target, first⟩ := findVideoMode_spec search
  refine ⟨?_, mode, by omega, target,
    fun other => first other (Nat.zero_le _), rfl⟩
  exact (((called_of_eq_some call1).trans searched).trans
    (called_of_eq_some call2)).trans (called_of_eq_some call3)

end Boot
end PivotOs
