import PivotOs.Acpi.Parse
import PivotOs.Library.BitField
import PivotOs.Logging
import Mathlib.Logic.Function.Basic

/-!
# The I/O APIC

`cpu/ioapic.c` reaches the registers of the I/O APIC through a window: a number
is written to the index register, and the register of that number is then read
or written.  An interrupt is set up by a redirection entry of 64 bits, which
takes two registers.  The entry is chosen by the interrupt source override of the
interrupt, when there is one.
-/

namespace PivotOs

/-- `KIOAPIC`, and the device at `KIOAPIC.addr`. -/
structure Ioapic where
  /-- `KIOAPIC.ovrds`, of which there are `KIOAPIC.num_ovrds`. -/
  ovrds : List IoapicSo
  /-- The index register. -/
  index : BitVec 8
  /-- The registers behind the window. -/
  registers : BitVec 8 → BitVec 32
  /-- The messages of the module. -/
  logs : List LogLine

namespace Ioapic

/-- `ioapic_redtbl_entry_t`. -/
abbrev RedtblEntry := Word

namespace RedtblEntry

/-- Assign to `destination`. -/
def setDestination (entry : RedtblEntry) (value : BitVec 8) : RedtblEntry :=
  BitField.set 56 value entry

/-- Assign to `mask`. -/
def setMask (entry : RedtblEntry) (value : Bool) : RedtblEntry :=
  BitField.set 16 (BitVec.ofBool value) entry

/-- Assign to `pin_polarity`, a field of one bit. -/
def setPinPolarity (entry : RedtblEntry) (value : BitVec 16) : RedtblEntry :=
  BitField.set 13 (value.setWidth 1) entry

/-- Assign to `trigger_mode`, a field of one bit. -/
def setTriggerMode (entry : RedtblEntry) (value : BitVec 16) : RedtblEntry :=
  BitField.set 15 (value.setWidth 1) entry

/-- `vector`. -/
def vector (entry : RedtblEntry) : BitVec 8 := BitField.get 0 8 entry

/-- `delivery_mode` and `destination_mode`. -/
def delivery (entry : RedtblEntry) : BitVec 4 := BitField.get 8 4 entry

/-- `pin_polarity`. -/
def pinPolarity (entry : RedtblEntry) : BitVec 1 := BitField.get 13 1 entry

/-- `trigger_mode`. -/
def triggerMode (entry : RedtblEntry) : BitVec 1 := BitField.get 15 1 entry

/-- `mask`. -/
def mask (entry : RedtblEntry) : BitVec 1 := BitField.get 16 1 entry

/-- `destination`. -/
def destination (entry : RedtblEntry) : BitVec 8 := BitField.get 56 8 entry

end RedtblEntry

/-- `read_register`. -/
def readRegister (s : Ioapic) (offset : BitVec 8) : BitVec 32 × Ioapic :=
  let selected := { s with index := offset }
  (selected.registers selected.index, selected)

/-- `write_register`. -/
def writeRegister (s : Ioapic) (offset : BitVec 8) (value : BitVec 32) :
    Ioapic :=
  let selected := { s with index := offset }
  { selected with
    registers := Function.update selected.registers selected.index value }

/-- The index is not that of the first register of a redirection entry. -/
def BadIndex (index : BitVec 8) : Prop :=
  index < 0x10#8 ∨ 0x3F#8 < index ∨ index % 2#8 ≠ 0#8

instance (index : BitVec 8) : Decidable (BadIndex index) :=
  inferInstanceAs (Decidable (_ ∨ _ ∨ _))

/-- `read_redirect`: the status, and what `*entry` holds afterwards. -/
def readRedirect (s : Ioapic) (index : BitVec 8) (entry : RedtblEntry) :
    Int × RedtblEntry × Ioapic :=
  if BadIndex index then (-1, entry, s)
  else
    let (lowerPart, first) := s.readRegister index
    let (upperPart, second) := first.readRegister (index + 1#8)
    (0, upperPart.setWidth 64 <<< 32 ||| lowerPart.setWidth 64, second)

/-- `write_redirect`. -/
def writeRedirect (s : Ioapic) (index : BitVec 8) (entry : RedtblEntry) :
    Int × Ioapic :=
  if BadIndex index then (-1, s)
  else
    let upperPart := (entry >>> 32).setWidth 32
    let lowerPart := entry.setWidth 32
    (0, (s.writeRegister index lowerPart).writeRegister (index + 1#8)
      upperPart)

/-- `find_so`: the first override of an interrupt. -/
def findSo (s : Ioapic) (irq : BitVec 8) : Option IoapicSo :=
  s.ovrds.find? fun so => so.irqSource = irq

/-- The message about an entry that does not exist. -/
def redirectionError : LogLine where
  level := .error
  target := "IOAPIC"
  text := "Error writing to redirection table"

/-- `set_irq`. -/
def setIrq (s : Ioapic) (irq idtEntry destinationField : BitVec 8)
    (flags : BitVec 32) (masked : Bool) : Ioapic :=
  let raw : RedtblEntry := (flags ||| idtEntry.setWidth 32).setWidth 64
  let entry := (raw.setDestination destinationField).setMask masked
  let (pin, entry) := match s.findSo irq with
    | some so =>
        (so.gsiBase.setWidth 8,
          (entry.setPinPolarity (so.flags &&& 2#16)).setTriggerMode
            (so.flags &&& 8#16))
    | none => (irq, entry)
  let redtblPos := 0x10#8 + pin * 2#8
  let (status, next) := s.writeRedirect redtblPos entry
  if status ≠ 0 then { next with logs := next.logs ++ [redirectionError] }
  else next

/-- `set_irq_mask`.  The last argument is what the variable `entry` holds before
it is assigned. -/
def setIrqMask (s : Ioapic) (irq : BitVec 8) (masked : Bool)
    (entry : RedtblEntry) : Ioapic :=
  let irq := match s.findSo irq with
    | some so => so.gsiBase.setWidth 8
    | none => irq
  let redtblPos := 0x10#8 + irq * 2#8
  let (_, entry, read) := s.readRedirect redtblPos entry
  (read.writeRedirect redtblPos (entry.setMask masked)).2

/-- The redirection entry in two registers. -/
def redirect (s : Ioapic) (index : BitVec 8) : RedtblEntry :=
  (s.registers (index + 1#8)).setWidth 64 <<< 32 |||
    (s.registers index).setWidth 64

variable {s : Ioapic} {index irq idtEntry destinationField : BitVec 8}
  {flags : BitVec 32} {masked : Bool} {entry : RedtblEntry}

/-! ## Redirection entries -/

/-- An entry is put together from its halves. -/
theorem halves (entry : RedtblEntry) :
    ((entry >>> 32).setWidth 32).setWidth 64 <<< 32 |||
      (entry.setWidth 32).setWidth 64 = entry := by
  apply BitVec.eq_of_getLsbD_eq
  intro i below
  simp only [BitVec.getLsbD_or, BitVec.getLsbD_shiftLeft,
    BitVec.getLsbD_setWidth, BitVec.getLsbD_ushiftRight]
  by_cases low : i < 32
  · simp [low, below]
  · have within : i - 32 < 64 := by omega
    have half : i - 32 < 32 := by omega
    have position : 32 + (i - 32) = i := by omega
    simp [low, below, within, half, position]

@[simp] theorem ovrds_writeRedirect :
    (s.writeRedirect index entry).2.ovrds = s.ovrds := by
  unfold writeRedirect
  split <;> rfl

theorem succ_ne (index : BitVec 8) : index ≠ index + 1#8 := by
  intro same
  have differ := congrArg BitVec.toNat same
  rw [BitVec.toNat_add, BitVec.toNat_ofNat] at differ
  have small := index.isLt
  omega

theorem writeRedirect_of_bad (bad : BadIndex index) :
    s.writeRedirect index entry = (-1, s) :=
  if_pos bad

theorem redirect_writeRedirect (good : ¬ BadIndex index) :
    (s.writeRedirect index entry).2.redirect index = entry := by
  rw [writeRedirect, if_neg good, redirect]
  simp only [writeRegister]
  rw [Function.update_self, Function.update_of_ne (succ_ne index),
    Function.update_self]
  exact halves entry

/-- The other registers keep what they hold. -/
theorem registers_writeRedirect
    {register : BitVec 8}
    (lower : register ≠ index)
    (upper : register ≠ index + 1#8) :
    (s.writeRedirect index entry).2.registers register =
      s.registers register := by
  unfold writeRedirect
  split
  · rfl
  · simp only [writeRegister]
    rw [Function.update_of_ne upper, Function.update_of_ne lower]

theorem readRedirect_eq (good : ¬ BadIndex index) :
    s.readRedirect index entry =
      (0, s.redirect index, { s with index := index + 1#8 }) := by
  rw [readRedirect, if_neg good]
  rfl

/-! ## The entry of an interrupt -/

/-- The pin of an interrupt: what its first override says, or its own number. -/
def pin (s : Ioapic) (irq : BitVec 8) : Nat :=
  match s.findSo irq with
  | some so => so.gsiBase.toNat
  | none => irq.toNat

/-- The number of the first register of the entry of a pin, narrowed to a
byte. -/
def redtblPos (pin : Nat) : BitVec 8 := BitVec.ofNat 8 (0x10 + 2 * pin)

/-- The entry of a pin. -/
def entryAt (s : Ioapic) (pin : Nat) : RedtblEntry := s.redirect (redtblPos pin)

/-- The entry of an interrupt without an override. -/
def plainEntry (idtEntry destinationField : BitVec 8) (flags : BitVec 32)
    (masked : Bool) : RedtblEntry :=
  let raw : RedtblEntry := (flags ||| idtEntry.setWidth 32).setWidth 64
  (raw.setDestination destinationField).setMask masked

/-- The entry that `set_irq` writes. -/
def irqEntry (s : Ioapic) (irq idtEntry destinationField : BitVec 8)
    (flags : BitVec 32) (masked : Bool) : RedtblEntry :=
  match s.findSo irq with
  | some so =>
      ((plainEntry idtEntry destinationField flags masked).setPinPolarity
        (so.flags &&& 2#16)).setTriggerMode (so.flags &&& 8#16)
  | none => plainEntry idtEntry destinationField flags masked

/-- Both functions narrow the pin before they compute the index. -/
theorem redtblPos_narrow (gsiBase : BitVec 32) :
    0x10#8 + gsiBase.setWidth 8 * 2#8 = redtblPos gsiBase.toNat := by
  apply BitVec.eq_of_toNat_eq
  rw [redtblPos, BitVec.toNat_add, BitVec.toNat_mul, BitVec.toNat_setWidth]
  simp only [BitVec.toNat_ofNat]
  omega

theorem redtblPos_irq (irq : BitVec 8) :
    0x10#8 + irq * 2#8 = redtblPos irq.toNat := by
  apply BitVec.eq_of_toNat_eq
  rw [redtblPos, BitVec.toNat_add, BitVec.toNat_mul]
  simp only [BitVec.toNat_ofNat]
  omega

theorem toNat_redtblPos (pin : Nat) :
    (redtblPos pin).toNat = (0x10 + 2 * (pin % 128)) % 256 := by
  rw [redtblPos, BitVec.toNat_ofNat]
  omega

/-- Every 128 pins the index comes back to the same registers. -/
theorem redtblPos_mod (pin : Nat) : redtblPos (pin % 128) = redtblPos pin := by
  apply BitVec.eq_of_toNat_eq
  rw [toNat_redtblPos, toNat_redtblPos, Nat.mod_mod]

theorem badIndex_redtblPos (pin : Nat) :
    BadIndex (redtblPos pin) ↔ 23 < pin % 128 := by
  have position := toNat_redtblPos pin
  rw [BadIndex, BitVec.lt_def, BitVec.lt_def, Ne, ← BitVec.toNat_inj,
    BitVec.toNat_umod]
  simp only [position, BitVec.toNat_ofNat, Nat.reducePow, Nat.reduceMod]
  omega

/-- The message is logged when there is no such entry. -/
theorem writeRedirect_report (s : Ioapic) (index : BitVec 8)
    (entry : RedtblEntry) :
    (if (s.writeRedirect index entry).1 ≠ 0 then
        { (s.writeRedirect index entry).2 with
          logs := (s.writeRedirect index entry).2.logs ++ [redirectionError] }
      else (s.writeRedirect index entry).2) =
      if BadIndex index then { s with logs := s.logs ++ [redirectionError] }
      else (s.writeRedirect index entry).2 := by
  by_cases bad : BadIndex index
  · rw [if_pos bad, writeRedirect_of_bad bad]
    rfl
  · have done : (s.writeRedirect index entry).1 = 0 := by
      rw [writeRedirect, if_neg bad]
    rw [if_neg bad, if_neg (not_not.mpr done)]

theorem setIrq_eq (s : Ioapic) (irq idtEntry destinationField : BitVec 8)
    (flags : BitVec 32) (masked : Bool) :
    s.setIrq irq idtEntry destinationField flags masked =
      if BadIndex (redtblPos (s.pin irq)) then
        { s with logs := s.logs ++ [redirectionError] }
      else
        (s.writeRedirect (redtblPos (s.pin irq))
          (s.irqEntry irq idtEntry destinationField flags masked)).2 := by
  rw [← writeRedirect_report]
  unfold setIrq pin irqEntry
  cases s.findSo irq with
  | none =>
      simp only [redtblPos_irq]
      rfl
  | some so =>
      simp only [redtblPos_narrow]
      rfl

/-- `set_irq_mask` works on the entry that `set_irq` writes. -/
theorem setIrqMask_eq (s : Ioapic) (irq : BitVec 8) (masked : Bool)
    (entry : RedtblEntry) :
    s.setIrqMask irq masked entry =
      if BadIndex (redtblPos (s.pin irq)) then s
      else
        (writeRedirect { s with index := redtblPos (s.pin irq) + 1#8 }
          (redtblPos (s.pin irq))
          ((s.entryAt (s.pin irq)).setMask masked)).2 := by
  have position : 0x10#8 + (match s.findSo irq with
      | some so => so.gsiBase.setWidth 8
      | none => irq) * 2#8 = redtblPos (s.pin irq) := by
    unfold pin
    cases s.findSo irq with
    | none => exact redtblPos_irq irq
    | some so => exact redtblPos_narrow so.gsiBase
  unfold setIrqMask
  simp only [position]
  split
  · rename_i bad
    rw [readRedirect, if_pos bad, writeRedirect_of_bad bad]
  · rename_i good
    rw [readRedirect_eq good]
    rfl

/-! ## Masking -/

/-- All registers but the two of an entry hold what they held before. -/
def ChangesOnly (index : BitVec 8) (before after : Ioapic) : Prop :=
  ∀ register, register ≠ index → register ≠ index + 1#8 →
    after.registers register = before.registers register

theorem ChangesOnly.trans
    {before middle after : Ioapic} {index : BitVec 8}
    (first : ChangesOnly index before middle)
    (second : ChangesOnly index middle after) :
    ChangesOnly index before after :=
  fun register lower upper =>
    (second register lower upper).trans (first register lower upper)

/-- `set_irq_mask` of one interrupt, several times.  With each mask stands what
the variable `entry` holds at first. -/
def setIrqMasks (s : Ioapic) (irq : BitVec 8)
    (calls : List (Bool × RedtblEntry)) : Ioapic :=
  calls.foldl (fun s call => s.setIrqMask irq call.1 call.2) s

theorem ovrds_setIrq :
    (s.setIrq irq idtEntry destinationField flags masked).ovrds = s.ovrds := by
  rw [setIrq_eq]
  split
  · rfl
  · exact ovrds_writeRedirect

theorem ovrds_setIrqMask : (s.setIrqMask irq masked entry).ovrds = s.ovrds := by
  rw [setIrqMask_eq]
  split
  · rfl
  · exact ovrds_writeRedirect

/-- The pin of an interrupt depends on the overrides only. -/
theorem pin_of_ovrds
    {other : Ioapic}
    (same : other.ovrds = s.ovrds) :
    other.pin irq = s.pin irq := by
  rw [pin, pin, findSo, findSo, same]

theorem changesOnly_setIrq :
    ChangesOnly (redtblPos (s.pin irq)) s
      (s.setIrq irq idtEntry destinationField flags masked) := by
  intro register lower upper
  rw [setIrq_eq]
  split
  · rfl
  · exact registers_writeRedirect lower upper

theorem changesOnly_setIrqMask :
    ChangesOnly (redtblPos (s.pin irq)) s (s.setIrqMask irq masked entry) := by
  intro register lower upper
  rw [setIrqMask_eq]
  split
  · rfl
  · exact registers_writeRedirect lower upper

theorem entryAt_setIrq
    (good : ¬ BadIndex (redtblPos (s.pin irq))) :
    (s.setIrq irq idtEntry destinationField flags masked).entryAt (s.pin irq) =
      s.irqEntry irq idtEntry destinationField flags masked := by
  rw [setIrq_eq, if_neg good]
  exact redirect_writeRedirect good

theorem entryAt_setIrqMask
    (good : ¬ BadIndex (redtblPos (s.pin irq))) :
    (s.setIrqMask irq masked entry).entryAt (s.pin irq) =
      (s.entryAt (s.pin irq)).setMask masked := by
  rw [setIrqMask_eq, if_neg good]
  exact redirect_writeRedirect good

theorem registers_setIrq_of_bad
    (bad : BadIndex (redtblPos (s.pin irq))) :
    (s.setIrq irq idtEntry destinationField flags masked).registers =
      s.registers := by
  rw [setIrq_eq, if_pos bad]

theorem setIrqMask_of_bad
    (bad : BadIndex (redtblPos (s.pin irq))) :
    s.setIrqMask irq masked entry = s := by
  rw [setIrqMask_eq, if_pos bad]

/-- The entry that `set_irq` writes has the mask it is given. -/
theorem mask_irqEntry :
    (s.irqEntry irq idtEntry destinationField flags masked).mask =
      BitVec.ofBool masked := by
  have plain : (plainEntry idtEntry destinationField flags masked).mask =
      BitVec.ofBool masked :=
    BitField.get_set_same _ (by decide)
  unfold irqEntry
  cases s.findSo irq with
  | none => exact plain
  | some so =>
      simp only [RedtblEntry.mask, RedtblEntry.setTriggerMode,
        RedtblEntry.setPinPolarity]
      rw [BitField.get_set_other _ (by decide) (by decide),
        BitField.get_set_other _ (by decide) (by decide)]
      exact plain

/-- Assigning the mask that an entry has changes nothing. -/
theorem setMask_of_mask_eq
    (same : entry.mask = BitVec.ofBool masked) :
    entry.setMask masked = entry := by
  rw [RedtblEntry.setMask, ← same]
  exact BitField.set_get 16 1

theorem setMask_setMask (entry : RedtblEntry) (first second : Bool) :
    (entry.setMask first).setMask second = entry.setMask second :=
  BitField.set_set _ _

/-- After a run of `set_irq_mask` the last mask counts. -/
theorem entryAt_setIrqMasks
    (good : ¬ BadIndex (redtblPos (s.pin irq)))
    (same : (s.entryAt (s.pin irq)).mask = BitVec.ofBool masked)
    (calls : List (Bool × RedtblEntry)) :
    (s.setIrqMasks irq calls).entryAt (s.pin irq) =
      (s.entryAt (s.pin irq)).setMask ((calls.map Prod.fst).getLastD masked) :=
    by
  induction calls generalizing s masked with
  | nil => exact (setMask_of_mask_eq same).symm
  | cons call calls inductionHypothesis =>
      have kept : (s.setIrqMask irq call.1 call.2).pin irq = s.pin irq :=
        pin_of_ovrds ovrds_setIrqMask
      have step : (s.setIrqMask irq call.1 call.2).entryAt (s.pin irq) =
          (s.entryAt (s.pin irq)).setMask call.1 :=
        entryAt_setIrqMask good
      have goodAfter : ¬ BadIndex
          (redtblPos ((s.setIrqMask irq call.1 call.2).pin irq)) := by
        rwa [kept]
      have maskAfter : ((s.setIrqMask irq call.1 call.2).entryAt
          ((s.setIrqMask irq call.1 call.2).pin irq)).mask =
            BitVec.ofBool call.1 := by
        rw [kept, step]
        exact BitField.get_set_same _ (by decide)
      have rest := inductionHypothesis goodAfter maskAfter
      rw [kept, step, setMask_setMask] at rest
      rw [List.map_cons, List.getLastD_cons]
      exact rest

theorem changesOnly_setIrqMasks
    (calls : List (Bool × RedtblEntry)) :
    ChangesOnly (redtblPos (s.pin irq)) s (s.setIrqMasks irq calls) := by
  induction calls generalizing s with
  | nil => exact fun _ _ _ => rfl
  | cons call calls inductionHypothesis =>
      have kept : (s.setIrqMask irq call.1 call.2).pin irq = s.pin irq :=
        pin_of_ovrds ovrds_setIrqMask
      have rest := @inductionHypothesis (s.setIrqMask irq call.1 call.2)
      rw [kept] at rest
      exact changesOnly_setIrqMask.trans rest

theorem setIrqMasks_of_bad
    (bad : BadIndex (redtblPos (s.pin irq)))
    (calls : List (Bool × RedtblEntry)) :
    s.setIrqMasks irq calls = s := by
  induction calls with
  | nil => rfl
  | cons call calls inductionHypothesis =>
      rw [setIrqMasks, List.foldl_cons, setIrqMask_of_bad bad]
      exact inductionHypothesis

/-- `set_irq_mask` changes the mask of the entry that `set_irq` writes, and
nothing else. -/
theorem setIrqMask_after_setIrq
    (s : Ioapic) (irq idtEntry destinationField : BitVec 8)
    (flags : BitVec 32) (masked : Bool)
    (calls : List (Bool × RedtblEntry)) :
    let index := redtblPos (s.pin irq)
    let written := s.setIrq irq idtEntry destinationField flags masked
    let last := written.setIrqMasks irq calls
    (¬ BadIndex index →
      (∀ masked entry,
        (s.setIrqMask irq masked entry).redirect index =
            (s.redirect index).setMask masked ∧
          ChangesOnly index s (s.setIrqMask irq masked entry)) ∧
      ChangesOnly index s written ∧
      last.redirect index = (written.redirect index).setMask
        ((calls.map Prod.fst).getLastD masked) ∧
      ChangesOnly index s last) ∧
    (BadIndex index →
      (∀ masked entry,
        (s.setIrqMask irq masked entry).registers = s.registers) ∧
      written.registers = s.registers ∧ last.registers = s.registers) := by
  intro index written last
  have kept : written.pin irq = s.pin irq := pin_of_ovrds ovrds_setIrq
  refine ⟨fun good => ⟨?_, changesOnly_setIrq, ?_, ?_⟩, fun bad => ⟨?_, ?_, ?_⟩⟩
  · exact fun masked entry => ⟨entryAt_setIrqMask good, changesOnly_setIrqMask⟩
  · have wrote : written.entryAt (s.pin irq) =
        s.irqEntry irq idtEntry destinationField flags masked :=
      entryAt_setIrq good
    have goodAfter : ¬ BadIndex (redtblPos (written.pin irq)) := by rwa [kept]
    have maskAfter : (written.entryAt (written.pin irq)).mask =
        BitVec.ofBool masked := by
      rw [kept, wrote]
      exact mask_irqEntry
    have run := entryAt_setIrqMasks goodAfter maskAfter calls
    rw [kept] at run
    exact run
  · have run : ChangesOnly (redtblPos (written.pin irq)) written last :=
      changesOnly_setIrqMasks calls
    rw [kept] at run
    exact changesOnly_setIrq.trans run
  · intro masked entry
    rw [setIrqMask_of_bad bad]
  · exact registers_setIrq_of_bad bad
  · have badAfter : BadIndex (redtblPos (written.pin irq)) := by rwa [kept]
    rw [show last = written from setIrqMasks_of_bad badAfter calls]
    exact registers_setIrq_of_bad bad

/-! ## Setting up an interrupt -/

/-- A bit of the flags of the first override of an interrupt. -/
def soFlag (s : Ioapic) (irq : BitVec 8) (bit : Nat) : Bool :=
  match s.findSo irq with
  | some so => so.flags.getLsbD bit
  | none => false

/-- The fields of an entry. -/
structure RedtblEntry.Holds (entry : RedtblEntry)
    (idtEntry destinationField : BitVec 8) (flags : BitVec 32)
    (masked polarity trigger : Bool) : Prop where
  vector : entry.vector = idtEntry
  delivery : entry.delivery = BitField.get 8 4 flags
  destination : entry.destination = destinationField
  mask : entry.mask = BitVec.ofBool masked
  pinPolarity : entry.pinPolarity = BitVec.ofBool polarity
  triggerMode : entry.triggerMode = BitVec.ofBool trigger

/-- `set_irq` writes what it is given to the entry of the pin, with the polarity
and the trigger mode of the override, and leaves the other pins alone. -/
structure Programs (s : Ioapic) (irq idtEntry destinationField : BitVec 8)
    (flags : BitVec 32) (masked : Bool) : Prop where
  written : s.pin irq ≤ 23 →
    RedtblEntry.Holds
      ((s.setIrq irq idtEntry destinationField flags masked).entryAt
        (s.pin irq))
      idtEntry destinationField flags masked (s.soFlag irq 1) (s.soFlag irq 3)
  others : ∀ other, other ≤ 23 → other ≠ s.pin irq →
    (s.setIrq irq idtEntry destinationField flags masked).entryAt other =
      s.entryAt other

/-- The flags of `set_irq` are those of the delivery: bits 8 to 11. -/
def DeliveryFlags (flags : BitVec 32) : Prop := flags &&& 0xF00#32 = flags

instance (flags : BitVec 32) : Decidable (DeliveryFlags flags) :=
  inferInstanceAs (Decidable (_ = _))

theorem DeliveryFlags.getLsbD_eq_false
    {bit : Nat}
    (delivery : DeliveryFlags flags)
    (outside : bit < 8 ∨ 12 ≤ bit) :
    flags.getLsbD bit = false := by
  rw [← delivery, BitVec.getLsbD_and]
  by_cases small : bit < 32
  · have clear : ∀ bit : Fin 32, (bit < 8 ∨ 12 ≤ bit.val) →
        (0xF00#32).getLsbD bit = false := by decide
    rw [clear ⟨bit, small⟩ outside, Bool.and_false]
  · rw [BitVec.getLsbD_of_ge _ _ (Nat.not_lt.mp small), Bool.false_and]

/-- A field below bit 16 of the entry without an override. -/
theorem getLsbD_plainEntry
    {bit : Nat}
    (low : bit < 16) :
    (plainEntry idtEntry destinationField flags masked).getLsbD bit =
      (flags.getLsbD bit || idtEntry.getLsbD bit) := by
  have small : bit < 32 := by omega
  rw [plainEntry, RedtblEntry.setMask, BitField.getLsbD_set _ (by omega),
    if_neg (by omega), RedtblEntry.setDestination,
    BitField.getLsbD_set _ (by omega), if_neg (by omega),
    BitVec.getLsbD_setWidth, BitVec.getLsbD_or, BitVec.getLsbD_setWidth]
  simp [small, show bit < 64 by omega]

theorem vector_plainEntry
    (delivery : DeliveryFlags flags) :
    (plainEntry idtEntry destinationField flags masked).vector = idtEntry := by
  apply BitVec.eq_of_getLsbD_eq
  intro i below
  rw [RedtblEntry.vector, BitField.get, BitVec.getLsbD_extractLsb',
    getLsbD_plainEntry (by omega), Nat.zero_add,
    delivery.getLsbD_eq_false (.inl below)]
  simp [below]

theorem delivery_plainEntry :
    (plainEntry idtEntry destinationField flags masked).delivery =
      BitField.get 8 4 flags := by
  apply BitVec.eq_of_getLsbD_eq
  intro i below
  rw [RedtblEntry.delivery, BitField.get, BitField.get,
    BitVec.getLsbD_extractLsb', BitVec.getLsbD_extractLsb',
    getLsbD_plainEntry (by omega),
    BitVec.getLsbD_of_ge idtEntry _ (by omega), Bool.or_false]

/-- Without an override polarity and trigger mode are zero. -/
theorem bit_plainEntry
    {bit : Nat}
    (delivery : DeliveryFlags flags)
    (behind : 12 ≤ bit)
    (low : bit < 16) :
    BitField.get bit 1 (plainEntry idtEntry destinationField flags masked) =
      0#1 := by
  apply BitVec.eq_of_getLsbD_eq
  intro i below
  obtain rfl : i = 0 := by omega
  rw [BitField.get, BitVec.getLsbD_extractLsb', Nat.add_zero,
    getLsbD_plainEntry low, delivery.getLsbD_eq_false (.inr behind),
    BitVec.getLsbD_of_ge idtEntry _ (by omega)]
  simp

theorem pinPolarity_plainEntry
    (delivery : DeliveryFlags flags) :
    (plainEntry idtEntry destinationField flags masked).pinPolarity = 0#1 :=
  bit_plainEntry delivery (by decide) (by decide)

theorem triggerMode_plainEntry
    (delivery : DeliveryFlags flags) :
    (plainEntry idtEntry destinationField flags masked).triggerMode = 0#1 :=
  bit_plainEntry delivery (by decide) (by decide)

/-- A field of one bit takes the lowest bit of what is assigned to it. -/
theorem setWidth_one
    {value : BitVec 16}
    (even : value.getLsbD 0 = false) :
    value.setWidth 1 = 0#1 := by
  apply BitVec.eq_of_getLsbD_eq
  intro i below
  obtain rfl : i = 0 := by omega
  rw [BitVec.getLsbD_setWidth, even]
  rfl

theorem setPinPolarity_eq
    (flags : BitVec 16)
    (zero : entry.pinPolarity = 0#1) :
    entry.setPinPolarity (flags &&& 2#16) = entry := by
  rw [RedtblEntry.setPinPolarity, setWidth_one (by simp), ← zero]
  exact BitField.set_get 13 1

theorem setTriggerMode_eq
    (flags : BitVec 16)
    (zero : entry.triggerMode = 0#1) :
    entry.setTriggerMode (flags &&& 8#16) = entry := by
  rw [RedtblEntry.setTriggerMode, setWidth_one (by simp), ← zero]
  exact BitField.set_get 15 1

/-- With or without an override the same entry is written: the bits of the flags
that are tested are not the lowest. -/
theorem irqEntry_eq
    (delivery : DeliveryFlags flags) :
    s.irqEntry irq idtEntry destinationField flags masked =
      plainEntry idtEntry destinationField flags masked := by
  unfold irqEntry
  cases s.findSo irq with
  | none => rfl
  | some so =>
      simp only [setPinPolarity_eq so.flags (pinPolarity_plainEntry delivery),
        setTriggerMode_eq so.flags (triggerMode_plainEntry delivery)]

/-- The entries of the other pins are in other registers. -/
theorem ChangesOnly.entryAt_eq
    {before after : Ioapic} {pin other : Nat}
    (only : ChangesOnly (redtblPos pin) before after)
    (inTable : other ≤ 23)
    (apart : other ≠ pin % 128) :
    after.entryAt other = before.entryAt other := by
  have here := toNat_redtblPos other
  have there := toNat_redtblPos pin
  have next : ∀ index : BitVec 8,
      (index + 1#8).toNat = (index.toNat + 1) % 256 := by
    intro index
    rw [BitVec.toNat_add, BitVec.toNat_ofNat]
  have lower : after.registers (redtblPos other) =
      before.registers (redtblPos other) := by
    apply only
    · rw [Ne, ← BitVec.toNat_inj]
      omega
    · rw [Ne, ← BitVec.toNat_inj, next]
      omega
  have upper : after.registers (redtblPos other + 1#8) =
      before.registers (redtblPos other + 1#8) := by
    apply only
    · rw [Ne, ← BitVec.toNat_inj, next]
      omega
    · rw [Ne, ← BitVec.toNat_inj, next, next]
      omega
  rw [entryAt, entryAt, redirect, redirect, lower, upper]

/-- What the entry without an override holds. -/
theorem holds_plainEntry_iff
    {polarity trigger : Bool}
    (delivery : DeliveryFlags flags) :
    RedtblEntry.Holds (plainEntry idtEntry destinationField flags masked)
        idtEntry destinationField flags masked polarity trigger ↔
      polarity = false ∧ trigger = false := by
  have zero : ∀ flag : Bool, 0#1 = BitVec.ofBool flag ↔ flag = false := by
    decide
  constructor
  · intro holds
    have first := holds.pinPolarity
    have second := holds.triggerMode
    rw [pinPolarity_plainEntry delivery, zero] at first
    rw [triggerMode_plainEntry delivery, zero] at second
    exact ⟨first, second⟩
  · rintro ⟨rfl, rfl⟩
    exact {
      vector := vector_plainEntry delivery
      delivery := delivery_plainEntry
      destination := by
        rw [plainEntry, RedtblEntry.destination, RedtblEntry.setMask,
          BitField.get_set_other _ (by decide) (by decide)]
        exact BitField.get_set_same _ (by decide)
      mask := BitField.get_set_same _ (by decide)
      pinPolarity := pinPolarity_plainEntry delivery
      triggerMode := triggerMode_plainEntry delivery }

/-- Where the index is good, `set_irq` leaves the entry without an override. -/
theorem entryAt_setIrq_eq_plainEntry
    (delivery : DeliveryFlags flags)
    (inTable : s.pin irq % 128 ≤ 23) :
    (s.setIrq irq idtEntry destinationField flags masked).entryAt (s.pin irq) =
      plainEntry idtEntry destinationField flags masked := by
  have good : ¬ BadIndex (redtblPos (s.pin irq)) := by
    rw [badIndex_redtblPos]
    omega
  rw [entryAt_setIrq good, irqEntry_eq delivery]

/-- On a pin with an entry, `set_irq` does its work exactly when the override
asks for the polarity and the trigger mode that are always written. -/
theorem programs_iff_of_le
    (delivery : DeliveryFlags flags)
    (inTable : s.pin irq ≤ 23) :
    s.Programs irq idtEntry destinationField flags masked ↔
      s.soFlag irq 1 = false ∧ s.soFlag irq 3 = false := by
  have narrow : s.pin irq % 128 = s.pin irq := Nat.mod_eq_of_lt (by omega)
  have written : (s.setIrq irq idtEntry destinationField flags masked).entryAt
      (s.pin irq) = plainEntry idtEntry destinationField flags masked :=
    entryAt_setIrq_eq_plainEntry delivery (by omega)
  rw [← holds_plainEntry_iff delivery, ← written]
  refine ⟨fun programs => programs.written inTable, fun holds => ?_⟩
  refine ⟨fun _ => holds, fun other small apart => ?_⟩
  exact changesOnly_setIrq.entryAt_eq small (by rwa [narrow])

/-- On a pin without an entry, `set_irq` writes nothing exactly when the narrowed
index is bad as well, or the entry that it reaches is the one it writes. -/
theorem programs_iff_of_lt
    (delivery : DeliveryFlags flags)
    (beyond : 23 < s.pin irq) :
    s.Programs irq idtEntry destinationField flags masked ↔
      23 < s.pin irq % 128 ∨ s.entryAt (s.pin irq % 128) =
        plainEntry idtEntry destinationField flags masked := by
  have only : ChangesOnly (redtblPos (s.pin irq)) s
      (s.setIrq irq idtEntry destinationField flags masked) :=
    changesOnly_setIrq
  have reached : ∀ t : Ioapic,
      t.entryAt (s.pin irq % 128) = t.entryAt (s.pin irq) := by
    intro t
    rw [entryAt, redtblPos_mod, entryAt]
  by_cases good : s.pin irq % 128 ≤ 23
  · have written : (s.setIrq irq idtEntry destinationField flags masked).entryAt
        (s.pin irq) = plainEntry idtEntry destinationField flags masked :=
      entryAt_setIrq_eq_plainEntry delivery good
    constructor
    · intro programs
      have kept := programs.others _ good (by omega)
      rw [reached, written] at kept
      exact .inr kept.symm
    · intro held
      have same : s.entryAt (s.pin irq % 128) =
          plainEntry idtEntry destinationField flags masked :=
        held.resolve_left (Nat.not_lt.mpr good)
      refine ⟨fun inTable => absurd beyond (Nat.not_lt.mpr inTable), ?_⟩
      intro other small apart
      by_cases here : other = s.pin irq % 128
      · rw [here, reached, written, same]
      · exact only.entryAt_eq small here
  · refine ⟨fun _ => .inl (by omega), fun _ => ?_⟩
    refine ⟨fun inTable => absurd beyond (Nat.not_lt.mpr inTable), ?_⟩
    exact fun other small apart => only.entryAt_eq small (by omega)

/-- When `set_irq` does its work. -/
theorem programs_iff
    (s : Ioapic) (irq idtEntry destinationField : BitVec 8)
    (flags : BitVec 32) (masked : Bool)
    (delivery : DeliveryFlags flags) :
    s.Programs irq idtEntry destinationField flags masked ↔
      (s.pin irq ≤ 23 ∧ s.soFlag irq 1 = false ∧ s.soFlag irq 3 = false) ∨
      (23 < s.pin irq ∧ (23 < s.pin irq % 128 ∨
        s.entryAt (s.pin irq % 128) =
          plainEntry idtEntry destinationField flags masked)) := by
  by_cases inTable : s.pin irq ≤ 23
  · rw [programs_iff_of_le delivery inTable]
    simp [inTable, Nat.not_lt.mpr inTable]
  · rw [programs_iff_of_lt delivery (Nat.not_le.mp inTable)]
    simp [inTable, Nat.not_le.mp inTable]

/-- An I/O APIC with the override that boards give to the interrupt of the
ACPI: the same pin, level triggered and active low. -/
def acpiIoapic : Ioapic where
  ovrds := [{
    type := Madt.intSoOvrdType
    length := 10#8
    busSource := 0#8
    irqSource := 9#8
    gsiBase := 9#32
    flags := 0xF#16 }]
  index := 0#8
  registers := fun _ => 0x10000#32
  logs := []

theorem programs_acpiIoapic_keyboard :
    acpiIoapic.Programs 1#8 0x21#8 0#8 0x100#32 false :=
  (programs_iff acpiIoapic 1#8 0x21#8 0#8 0x100#32 false (by decide)).mpr
    (.inl (by decide))

/-- The interrupt of the ACPI is set up as active high and edge triggered, and
one above the pins reaches the entry of pin 0. -/
theorem not_programs_acpiIoapic :
    ¬ acpiIoapic.Programs 9#8 0x29#8 0#8 0#32 false ∧
      ¬ acpiIoapic.Programs 128#8 0x80#8 0#8 0#32 false := by
  constructor
  · rw [programs_iff_of_le (by decide) (by decide)]
    decide
  · rw [programs_iff_of_lt (by decide) (by decide)]
    decide

end Ioapic
end PivotOs
