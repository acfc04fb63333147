import PivotOs.Acpi.Madt
import PivotOs.Smp.Stacks
import Mathlib.Data.List.Perm.Subperm
import Mathlib.Data.List.Range

/-!
# Whom the messages reach

`start_aps` counts the local APIC entries of the table and then takes the
numbers below the count for the APIC ids of the processors.  It reads neither
the ids nor the flags of the entries.  In xAPIC mode it does not even name the
number: the destination would go to the upper half of the command register,
which `start_ap` does not write.
-/

namespace PivotOs

/-! ## The messages of `start_ap` -/

namespace Ipi

/-- The delivery mode is `ICR_INIT`. -/
def IsInit (ipi : Ipi) : Prop := ipi.command &&& 0x700#32 = 0x500#32

/-- The delivery mode is `ICR_STARTUP`. -/
def IsStartup (ipi : Ipi) : Prop := ipi.command &&& 0x700#32 = 0x600#32

instance (ipi : Ipi) : Decidable ipi.IsInit :=
  inferInstanceAs (Decidable (_ = _))

instance (ipi : Ipi) : Decidable ipi.IsStartup :=
  inferInstanceAs (Decidable (_ = _))

end Ipi

namespace Lapic

/-- `get_apic_id`, from what the register holds, as it is stored in `CPU`. -/
def cpuOf (x2mode : Bool) (register : BitVec 32) : BitVec 8 :=
  (if x2mode then register else register >>> 24).setWidth 8

/-- What the register holds on the processor with an APIC id. -/
def apicIdRegister (x2mode : Bool) (id : BitVec 8) : BitVec 32 :=
  if x2mode then id.setWidth 32 else id.setWidth 32 <<< 24

/-- Every processor gets its own APIC id for `CPU`. -/
theorem cpuOf_apicIdRegister (x2mode : Bool) (id : BitVec 8) :
    cpuOf x2mode (apicIdRegister x2mode id) = id := by
  apply BitVec.eq_of_toNat_eq
  have small := id.isLt
  cases x2mode with
  | true =>
      simp only [cpuOf, apicIdRegister, if_true, BitVec.toNat_setWidth]
      omega
  | false =>
      simp only [cpuOf, apicIdRegister, Bool.false_eq_true, if_false,
        BitVec.toNat_setWidth, BitVec.toNat_ushiftRight, BitVec.toNat_shiftLeft,
        Nat.shiftLeft_eq, Nat.shiftRight_eq_div_pow]
      omega

/-- Where the messages for a processor go. -/
def destination (l : Lapic) (id : Nat) : BitVec 32 :=
  if l.x2mode then BitVec.ofNat 32 id else l.registers icrHiOff >>> 24

/-- The messages of `start_ap` for a processor, newest first. -/
def messages (l : Lapic) (id : Nat) : List Ipi :=
  [⟨l.destination id, 0x608#32⟩, ⟨l.destination id, 0x608#32⟩,
    ⟨l.destination id, 0x8500#32⟩, ⟨l.destination id, 0xC500#32⟩]

/-- Two states of the local APIC with the same messages and destinations. -/
structure Alike (l other : Lapic) : Prop where
  /-- The mode is the same. -/
  x2mode : other.x2mode = l.x2mode
  /-- The destination of xAPIC mode is the same. -/
  icrHi : other.registers icrHiOff = l.registers icrHiOff

variable {l other : Lapic}

theorem Alike.destination
    (alike : Alike l other)
    (id : Nat) :
    other.destination id = l.destination id := by
  rw [Lapic.destination, Lapic.destination, alike.x2mode, alike.icrHi]

theorem Alike.messages
    (alike : Alike l other)
    (id : Nat) :
    other.messages id = l.messages id := by
  rw [Lapic.messages, Lapic.messages, alike.destination]

theorem Alike.trans
    {last : Lapic}
    (first : Alike l other)
    (second : Alike other last) :
    Alike l last :=
  ⟨second.x2mode.trans first.x2mode, second.icrHi.trans first.icrHi⟩

/-- A write to a register other than that of the upper half changes no
destination. -/
theorem alike_writeApicRegister
    (regOff : BitVec 32) (val : Word)
    (apart : regOff ≠ icrHiOff) :
    Alike l (l.writeApicRegister regOff val) := by
  cases mode : l.x2mode with
  | true =>
      rw [writeApicRegister, if_pos mode, wrmsr]
      split <;> exact ⟨rfl, rfl⟩
  | false =>
      rw [writeApicRegister, if_neg (by simp [mode])]
      exact ⟨rfl, if_neg apart.symm⟩

/-- A write to a register other than the command register sends nothing. -/
theorem sent_writeApicRegister
    {regOff : BitVec 32}
    (val : Word)
    (apart : regOff ≠ icrLoOff)
    (apart' : regOff >>> 4 + 0x800#32 ≠ 0x830#32) :
    (l.writeApicRegister regOff val).sent = l.sent := by
  cases mode : l.x2mode with
  | true => rw [writeApicRegister, if_pos mode, wrmsr, if_neg apart']
  | false =>
      rw [writeApicRegister, if_neg (by simp [mode]), store]
      exact if_neg apart

/-- The number of the processor stands in the upper half, and the command in
the lower. -/
theorem halves
    (id : Nat) {command : Word}
    (low : command >>> 32 = 0#64) :
    ((BitVec.ofNat 64 id <<< 32 ||| command) >>> 32).setWidth 32 =
        BitVec.ofNat 32 id ∧
      (BitVec.ofNat 64 id <<< 32 ||| command).setWidth 32 =
        command.setWidth 32 := by
  constructor
  · rw [BitVec.ushiftRight_or_distrib, low, BitVec.or_zero]
    apply BitVec.eq_of_toNat_eq
    simp only [BitVec.toNat_setWidth, BitVec.toNat_ushiftRight,
      BitVec.toNat_shiftLeft, BitVec.toNat_ofNat, Nat.shiftLeft_eq,
      Nat.shiftRight_eq_div_pow]
    omega
  · apply BitVec.eq_of_getLsbD_eq
    intro i small
    simp [small]

/-- A command is sent to the destination of the processor. -/
theorem sent_command
    {id : Nat} {command : Word}
    (low : command >>> 32 = 0#64) :
    (l.writeApicRegister icrLoOff
        (BitVec.ofNat 64 id <<< 32 ||| command)).sent =
      ⟨l.destination id, command.setWidth 32⟩ :: l.sent := by
  obtain ⟨upper, lower⟩ := halves id low
  cases mode : l.x2mode with
  | true =>
      rw [writeApicRegister, if_pos mode, wrmsr, if_pos (by decide), upper,
        lower, destination, if_pos mode]
  | false =>
      have xapic : ¬ l.x2mode = true := by simp [mode]
      rw [writeApicRegister, if_neg xapic, store, lower, destination,
        if_neg xapic]
      simp

theorem alike_delay (oneshot numTicks : Word) :
    Alike l (l.delay oneshot numTicks) :=
  ((alike_writeApicRegister _ _ (by decide)).trans
    (alike_writeApicRegister _ _ (by decide))).trans
      (alike_writeApicRegister _ _ (by decide))

theorem sent_delay (oneshot numTicks : Word) :
    (l.delay oneshot numTicks).sent = l.sent := by
  rw [delay, sent_writeApicRegister _ (by decide) (by decide),
    sent_writeApicRegister _ (by decide) (by decide),
    sent_writeApicRegister _ (by decide) (by decide)]

theorem alike_startup (id : Word) (page : BitVec 8) (oneshot numTicks : Word) :
    Alike l (l.startup id page oneshot numTicks) :=
  (alike_writeApicRegister _ _ (by decide)).trans (alike_delay oneshot numTicks)

theorem sent_startup (id : Nat) (oneshot numTicks : Word) :
    (l.startup (BitVec.ofNat 64 id) 0x8#8 oneshot numTicks).sent =
      ⟨l.destination id, 0x608#32⟩ :: l.sent := by
  rw [startup, sent_delay, BitVec.or_assoc, sent_command (by decide)]
  rfl

theorem alike_startAp (id : Word) (page : BitVec 8) (oneshot numTicks : Word) :
    Alike l (l.startAp id page oneshot numTicks) :=
  ((alike_writeApicRegister _ _ (by decide)).trans
    (alike_writeApicRegister _ _ (by decide))).trans
      ((alike_startup _ _ _ _).trans (alike_startup _ _ _ _))

/-- `start_ap` sends its four messages to one destination. -/
theorem sent_startAp (id : Nat) (oneshot numTicks : Word) :
    (l.startAp (BitVec.ofNat 64 id) 0x8#8 oneshot numTicks).sent =
      l.messages id ++ l.sent := by
  have first : Alike l _ := alike_writeApicRegister icrLoOff
    (BitVec.ofNat 64 id <<< 32 ||| icrInit ||| icrAssert ||| icrLevel)
    (by decide)
  have second := first.trans (alike_writeApicRegister icrLoOff
    (BitVec.ofNat 64 id <<< 32 ||| icrInit ||| icrLevel) (by decide))
  rw [startAp, sent_startup, sent_startup,
    (second.trans (alike_startup _ _ _ _)).destination, second.destination]
  simp only [BitVec.or_assoc] at first ⊢
  rw [sent_command (by decide), sent_command (by decide), first.destination]
  rfl

end Lapic

/-! ## The messages of a run -/

namespace Smp

variable {info : SmpInfo} {s next : Smp}

/-- The processors for which `start_ap` has been called. -/
def launched (s : Smp) : List Nat :=
  match s.pc with
  | .store _ | .publish | .mapIdle | .mapKernel | .start =>
      s.answers.tail.map Prod.fst
  | _ => s.answers.map Prod.fst

/-- The messages sent since the call are those for the launched
processors. -/
structure Sent (l : Lapic) (s : Smp) : Prop where
  /-- The mode and the destination of xAPIC mode stay. -/
  alike : Lapic.Alike l s.lapic
  /-- The messages are those of `start_ap`. -/
  sent_iff : ∀ ipi, ipi ∈ s.lapic.sent ↔
    ipi ∈ l.sent ∨ ∃ id ∈ s.launched, ipi ∈ l.messages id

theorem Sent.keep
    {l : Lapic}
    (sent : Sent l s)
    (lapic_eq : next.lapic = s.lapic)
    (launched_eq : next.launched = s.launched) :
    Sent l next := by
  refine ⟨lapic_eq ▸ sent.alike, ?_⟩
  intro ipi
  rw [lapic_eq, launched_eq]
  exact sent.sent_iff ipi

/-- Only `start_ap` sends anything. -/
theorem bootStep_silent
    (running : s.pc ≠ .start)
    (stepped : s.bootStep info = some next) :
    next.lapic = s.lapic ∧ next.launched = s.launched := by
  unfold bootStep at stepped
  cases pc : s.pc with
  | start => exact absurd pc running
  | done => simp [pc] at stepped
  | entry | alloc | mapIdle | mapKernel =>
      simp only [pc] at stepped
      obtain ⟨result, -, rfl⟩ := Option.map_eq_some_iff.mp stepped
      exact ⟨rfl, by simp [launched, pc]⟩
  | copy | store | publish | release | finish =>
      simp only [pc, Option.some.injEq] at stepped
      subst stepped
      exact ⟨rfl, by simp [launched, pc]⟩
  | head =>
      simp only [pc] at stepped
      split at stepped
      · split at stepped
        · obtain rfl := Option.some.inj stepped
          exact ⟨rfl, by simp [launched, pc]⟩
        · obtain rfl := Option.some.inj stepped
          exact ⟨rfl, by simp [launched, pc]⟩
      · obtain rfl := Option.some.inj stepped
        exact ⟨rfl, by simp [launched, pc]⟩
  | wait =>
      simp only [pc] at stepped
      split at stepped
      · obtain rfl := Option.some.inj stepped
        exact ⟨rfl, rfl⟩
      · obtain rfl := Option.some.inj stepped
        exact ⟨rfl, by simp [launched, pc]⟩

/-- `start_ap` sends the messages for the current processor. -/
theorem Sent.start
    {l : Lapic}
    (sent : Sent l s)
    (inv : Inv info s)
    (pc : s.pc = .start)
    (stepped : s.bootStep info = some next) :
    Sent l next := by
  have recorded := inv.recorded
  simp only [Recorded, pc] at recorded
  obtain ⟨frame, ⟨⟨earlier, newest⟩, -⟩, -⟩ := recorded
  have before : s.launched = earlier.map Prod.fst := by
    simp [launched, pc, newest]
  unfold Smp.bootStep at stepped
  simp only [pc, Option.some.injEq] at stepped
  subst stepped
  refine ⟨sent.alike.trans (Lapic.alike_startAp _ _ _ _), ?_⟩
  intro ipi
  have after : ipi ∈ (s.lapic.startAp (BitVec.ofNat 64 s.id) 0x8#8 info.oneshot
      (info.msInterval * 200#64 / 1000#64)).sent ↔
      ipi ∈ l.messages s.id ∨ ipi ∈ s.lapic.sent := by
    rw [Lapic.sent_startAp, List.mem_append, sent.alike.messages]
  rw [after, sent.sent_iff, before]
  simp only [launched, newest, List.map_cons, List.mem_cons,
    exists_eq_or_imp]
  exact or_left_comm

theorem Sent.step
    {l : Lapic} {action : SmpAction}
    (sent : Sent l s)
    (inv : Inv info s)
    (stepped : s.step info action = some next) :
    Sent l next := by
  cases action with
  | boot =>
      by_cases pc : s.pc = .start
      · exact sent.start inv pc stepped
      · obtain ⟨lapic_eq, launched_eq⟩ := bootStep_silent pc stepped
        exact sent.keep lapic_eq launched_eq
  | ap id =>
      rw [Smp.step] at stepped
      obtain ⟨-, rfl⟩ | ⟨stackTop, -, rfl⟩ := apStep_cases stepped
      · exact sent.keep rfl rfl
      · exact sent.keep rfl rfl

section Runs

variable {machine : Machine} {apBoot : ApInfo} {stackOf : Nat → Word}
variable {lapic : Lapic} {actions : List SmpAction} {last : Smp}

theorem run_sent
    (ran : Runs.run (step info) (begin machine apBoot stackOf lapic) actions =
      some last) :
    Sent lapic last := by
  have both : Inv info last ∧ Sent lapic last := by
    refine Runs.run_invariant (fun s => Inv info s ∧ Sent lapic s)
      (fun _ _ _ kept stepped =>
        ⟨kept.1.step stepped, kept.2.step kept.1 stepped⟩) ?_ ran
    refine ⟨begin_inv info, ⟨rfl, rfl⟩, ?_⟩
    intro ipi
    simp [begin, launched]
  exact both.2

/-- When `start_aps` has returned, it has sent the messages for every number
below `num_cpus` other than that of the boot processor. -/
theorem sent_iff_of_done
    (ran : Runs.run (step info) (begin machine apBoot stackOf lapic) actions =
      some last)
    (ended : last.pc = .done)
    (silent : lapic.sent = [])
    (ipi : Ipi) :
    ipi ∈ last.lapic.sent ↔
      ∃ id, id < info.numCpus ∧ id ≠ info.cpu.toNat ∧
        ipi ∈ lapic.messages id := by
  have inv := run_inv ran
  have launched_eq : last.launched = last.answers.map Prod.fst := by
    simp [launched, ended]
  rw [(run_sent ran).sent_iff, silent, launched_eq]
  simp only [List.not_mem_nil, false_or]
  constructor
  · rintro ⟨id, started, message⟩
    obtain ⟨below, other⟩ := inv.due id started
    exact ⟨id, below, other, message⟩
  · rintro ⟨id, below, other, message⟩
    have behind := inv.ended (Or.inr ended)
    exact ⟨id, (inv.passed id (below.trans_le behind)).resolve_left other,
      message⟩

end Runs

/-! ## The processors of the table -/

/-- The destination is that of a processor to be started. -/
def Target (entries : List Madt.LapicEntry) (boot : BitVec 8)
    (destination : BitVec 32) : Prop :=
  ∃ entry ∈ entries, entry.Enabled ∧ entry.id ≠ boot ∧
    destination = entry.id.setWidth 32

/-- The messages go to exactly the enabled processors other than the boot
processor, and every enabled processor has an index below `num_cpus`. -/
structure ReachesEnabled (entries : List Madt.LapicEntry) (x2mode : Bool)
    (boot : BitVec 8) (numCpus : Nat) (sent : List Ipi) : Prop where
  /-- The INIT messages. -/
  init : ∀ destination,
    (∃ ipi ∈ sent, ipi.IsInit ∧ ipi.destination = destination) ↔
      Target entries boot destination
  /-- The STARTUP messages. -/
  startup : ∀ destination,
    (∃ ipi ∈ sent, ipi.IsStartup ∧ ipi.destination = destination) ↔
      Target entries boot destination
  /-- `CPU` is an index into `KCPUS`. -/
  indexed : ∀ entry ∈ entries, entry.Enabled →
    (Lapic.cpuOf x2mode (Lapic.apicIdRegister x2mode entry.id)).toNat < numCpus

/-- The numbering of the table that `start_aps` relies on.  In x2APIC mode
every entry is enabled and has an id below the number of entries.  In xAPIC
mode the enabled ids are below the number of entries, and unless the table has
only one entry, the boot processor's, there is exactly one other enabled
processor, which the register of the upper half names already. -/
def Numbered (entries : List Madt.LapicEntry) (boot : BitVec 8) (l : Lapic) :
    Prop :=
  if l.x2mode then
    ∀ entry ∈ entries, entry.Enabled ∧ entry.id.toNat < entries.length
  else
    (∀ entry ∈ entries, entry.Enabled → entry.id.toNat < entries.length) ∧
      (entries.length = 1 ∨
        ∃ entry ∈ entries, entry.Enabled ∧ entry.id ≠ boot ∧
          entry.id.setWidth 32 = l.registers Lapic.icrHiOff >>> 24 ∧
          ∀ other ∈ entries, other.Enabled →
            other.id = boot ∨ other.id = entry.id)

/-- Some number below the count other than that of the boot processor has the
destination. -/
def Addressed (l : Lapic) (numCpus : Nat) (boot : BitVec 8)
    (destination : BitVec 32) : Prop :=
  ∃ id, id < numCpus ∧ id ≠ boot.toNat ∧ l.destination id = destination

/-- The messages of either kind go to the addressed destinations. -/
theorem destinations_iff
    {l : Lapic} {numCpus : Nat} {boot : BitVec 8} {sent : List Ipi}
    (Kind : Ipi → Prop)
    (sent_iff : ∀ ipi, ipi ∈ sent ↔
      ∃ id, id < numCpus ∧ id ≠ boot.toNat ∧ ipi ∈ l.messages id)
    (some_kind : ∀ id, ∃ ipi ∈ l.messages id, Kind ipi)
    (destination : BitVec 32) :
    (∃ ipi ∈ sent, Kind ipi ∧ ipi.destination = destination) ↔
      Addressed l numCpus boot destination := by
  have one : ∀ id, ∀ ipi ∈ l.messages id,
      ipi.destination = l.destination id := by
    intro id ipi member
    simp only [Lapic.messages, List.mem_cons, List.not_mem_nil, or_false]
      at member
    rcases member with rfl | rfl | rfl | rfl <;> rfl
  constructor
  · rintro ⟨ipi, member, -, rfl⟩
    obtain ⟨id, below, other, message⟩ := (sent_iff ipi).mp member
    exact ⟨id, below, other, (one id ipi message).symm⟩
  · rintro ⟨id, below, other, rfl⟩
    obtain ⟨ipi, message, kind⟩ := some_kind id
    exact ⟨ipi, (sent_iff ipi).mpr ⟨id, below, other, message⟩, kind,
      one id ipi message⟩

section Numbering

variable {entries : List Madt.LapicEntry} {boot : BitVec 8} {l : Lapic}

theorem setWidth_injective
    {id other : BitVec 8}
    (same : id.setWidth 32 = other.setWidth 32) :
    id = other := by
  apply BitVec.eq_of_toNat_eq
  have values := congrArg BitVec.toNat same
  have small := id.isLt
  have small' := other.isLt
  simp only [BitVec.toNat_setWidth] at values
  omega

theorem ofNat_toNat_setWidth (id : BitVec 8) :
    BitVec.ofNat 32 id.toNat = id.setWidth 32 := by
  apply BitVec.eq_of_toNat_eq
  simp

/-- Distinct ids below the number of entries are all the numbers below it. -/
theorem exists_entry_of_lt
    (distinct : (entries.map Madt.LapicEntry.id).Nodup)
    (small : ∀ entry ∈ entries, entry.id.toNat < entries.length)
    {id : Nat}
    (below : id < entries.length) :
    ∃ entry ∈ entries, entry.id.toNat = id := by
  have nodup : (entries.map fun entry => entry.id.toNat).Nodup := by
    rw [← Function.comp_def BitVec.toNat, ← List.map_map]
    exact distinct.map fun _ _ => BitVec.eq_of_toNat_eq
  have inside : (entries.map fun entry => entry.id.toNat) ⊆
      List.range entries.length := by
    intro number member
    obtain ⟨entry, listed, rfl⟩ := List.mem_map.mp member
    exact List.mem_range.mpr (small entry listed)
  have all := (List.subperm_of_subset nodup inside).perm_of_length_le
    (by simp)
  have member := all.mem_iff.mpr (List.mem_range.mpr below)
  obtain ⟨entry, listed, same⟩ := List.mem_map.mp member
  exact ⟨entry, listed, same⟩

/-- When every number below the number of entries is the id of an enabled one,
every entry is enabled. -/
theorem all_enabled
    (covered : ∀ id, id < entries.length →
      ∃ entry ∈ entries, entry.Enabled ∧ entry.id.toNat = id) :
    ∀ entry ∈ entries, entry.Enabled := by
  let enabled := entries.filter fun entry => decide entry.Enabled
  have inside : List.range entries.length ⊆
      enabled.map fun entry => entry.id.toNat := by
    intro id member
    obtain ⟨entry, listed, usable, rfl⟩ :=
      covered id (List.mem_range.mp member)
    exact List.mem_map_of_mem (List.mem_filter.mpr ⟨listed, by simpa⟩)
  have long := (List.subperm_of_subset List.nodup_range inside).length_le
  rw [List.length_range, List.length_map] at long
  have whole : enabled.length = entries.length :=
    le_antisymm (List.length_filter_le _ _) long
  intro entry listed
  simpa using List.length_filter_eq_length_iff.mp whole entry listed

/-- The messages of x2APIC mode. -/
theorem addressed_iff_x2mode
    (mode : l.x2mode = true)
    (distinct : (entries.map Madt.LapicEntry.id).Nodup)
    (few : entries.length < 256)
    (booted : ∃ entry ∈ entries, entry.Enabled ∧ entry.id = boot) :
    ((∀ destination, Addressed l entries.length boot destination ↔
        Target entries boot destination) ∧
      ∀ entry ∈ entries, entry.Enabled → entry.id.toNat < entries.length) ↔
      Numbered entries boot l := by
  have destination_eq : ∀ id, l.destination id = BitVec.ofNat 32 id := by
    intro id
    rw [Lapic.destination, if_pos mode]
  rw [Numbered, if_pos mode]
  constructor
  · rintro ⟨same, small⟩
    have usable : ∀ entry ∈ entries, entry.Enabled := by
      apply all_enabled
      intro id below
      by_cases first : id = boot.toNat
      · obtain ⟨entry, listed, enabled, rfl⟩ := booted
        exact ⟨entry, listed, enabled, first.symm⟩
      · obtain ⟨entry, listed, enabled, -, here⟩ :=
          (same (BitVec.ofNat 32 id)).mp ⟨id, below, first, destination_eq id⟩
        refine ⟨entry, listed, enabled, ?_⟩
        have values := congrArg BitVec.toNat here
        have narrow := entry.id.isLt
        simp only [BitVec.toNat_ofNat, BitVec.toNat_setWidth] at values
        omega
    intro entry listed
    exact ⟨usable entry listed, small entry listed (usable entry listed)⟩
  · intro numbered
    refine ⟨?_, fun entry listed _ => (numbered entry listed).2⟩
    intro destination
    constructor
    · rintro ⟨id, below, other, rfl⟩
      obtain ⟨entry, listed, rfl⟩ := exists_entry_of_lt distinct
        (fun entry listed => (numbered entry listed).2) below
      refine ⟨entry, listed, (numbered entry listed).1, ?_, ?_⟩
      · intro first
        exact other (congrArg BitVec.toNat first)
      · rw [destination_eq, ofNat_toNat_setWidth]
    · rintro ⟨entry, listed, -, other, rfl⟩
      refine ⟨entry.id.toNat, (numbered entry listed).2, ?_, ?_⟩
      · intro first
        exact other (BitVec.eq_of_toNat_eq first)
      · rw [destination_eq, ofNat_toNat_setWidth]

/-- The messages of xAPIC mode all go to one destination. -/
theorem addressed_iff_xmode
    (mode : l.x2mode = false)
    (booted : ∃ entry ∈ entries, entry.Enabled ∧ entry.id = boot) :
    ((∀ destination, Addressed l entries.length boot destination ↔
        Target entries boot destination) ∧
      ∀ entry ∈ entries, entry.Enabled → entry.id.toNat < entries.length) ↔
      Numbered entries boot l := by
  have xapic : ¬ l.x2mode = true := by simp [mode]
  have destination_eq : ∀ id,
      l.destination id = l.registers Lapic.icrHiOff >>> 24 := by
    intro id
    rw [Lapic.destination, if_neg xapic]
  obtain ⟨bootEntry, bootListed, bootEnabled, rfl⟩ := booted
  rw [Numbered, if_neg xapic, and_comm]
  refine and_congr_right fun small => ?_
  have bootSmall := small bootEntry bootListed bootEnabled
  constructor
  · intro same
    by_cases alone : entries.length = 1
    · exact Or.inl alone
    · right
      obtain ⟨id, below, first⟩ : ∃ id, id < entries.length ∧
          id ≠ bootEntry.id.toNat := by
        by_cases zero : bootEntry.id.toNat = 0
        · exact ⟨1, by omega, by omega⟩
        · exact ⟨0, by omega, by omega⟩
      obtain ⟨entry, listed, enabled, other, here⟩ :=
        (same _).mp ⟨id, below, first, destination_eq id⟩
      refine ⟨entry, listed, enabled, other, here.symm, ?_⟩
      intro third thirdListed thirdEnabled
      by_cases thirdBoot : third.id = bootEntry.id
      · exact Or.inl thirdBoot
      · obtain ⟨number, -, -, there⟩ :=
          (same _).mpr ⟨third, thirdListed, thirdEnabled, thirdBoot, rfl⟩
        rw [destination_eq] at there
        exact Or.inr (setWidth_injective (there.symm.trans here))
  · intro single destination
    constructor
    · rintro ⟨id, below, first, rfl⟩
      cases single with
      | inl alone => omega
      | inr other =>
          obtain ⟨entry, listed, enabled, apart, here, -⟩ := other
          exact ⟨entry, listed, enabled, apart,
            (destination_eq id).trans here.symm⟩
    · rintro ⟨entry, listed, enabled, apart, rfl⟩
      have below := small entry listed enabled
      refine ⟨entry.id.toNat, below, ?_, ?_⟩
      · intro first
        exact apart (BitVec.eq_of_toNat_eq first)
      cases single with
      | inl alone =>
          exact absurd (BitVec.eq_of_toNat_eq (by omega)) apart
      | inr other =>
          obtain ⟨only, -, -, -, here, unique⟩ := other
          rw [destination_eq, ← here,
            (unique entry listed enabled).resolve_left apart]

end Numbering

/-- In every run of `start_aps` that returns, the messages reach exactly the
enabled processors if and only if the table numbers its processors as
`start_aps` assumes. -/
theorem reachesEnabled_iff
    (table : Madt) (items : List Nat) (boot : BitVec 8) (info : SmpInfo)
    (machine : Machine) (apBoot : ApInfo) (stackOf : Nat → Word)
    (lapic : Lapic) (actions : List SmpAction) (last : Smp)
    (tiled : Madt.Tiled table Madt.headerSize items)
    (distinct : ((table.lapics items).map Madt.LapicEntry.id).Nodup)
    (few : (table.lapics items).length < 256)
    (booted : ∃ entry ∈ table.lapics items, entry.Enabled ∧ entry.id = boot)
    (counted : table.getMadtCount Madt.lapicType = some info.numCpus)
    (cpu_eq : info.cpu =
      Lapic.cpuOf lapic.x2mode (Lapic.apicIdRegister lapic.x2mode boot))
    (silent : lapic.sent = [])
    (ran : Runs.run (step info) (begin machine apBoot stackOf lapic) actions =
      some last)
    (ended : last.pc = .done) :
    ReachesEnabled (table.lapics items) lapic.x2mode boot info.numCpus
        last.lapic.sent ↔
      Numbered (table.lapics items) boot lapic := by
  have numCpus_eq : info.numCpus = (table.lapics items).length := by
    have few : (table.ofType Madt.lapicType items).length < 256 := by
      simpa [Madt.lapics] using few
    have same := counted.symm.trans (Madt.getMadtCount_eq tiled few)
    simpa [Madt.lapics] using same
  rw [Lapic.cpuOf_apicIdRegister] at cpu_eq
  have sent_iff := sent_iff_of_done ran ended silent
  rw [numCpus_eq, cpu_eq] at sent_iff
  have init_iff := destinations_iff Ipi.IsInit sent_iff
    fun id => ⟨⟨lapic.destination id, 0x8500#32⟩, by simp [Lapic.messages],
      by simp [Ipi.IsInit]⟩
  have startup_iff := destinations_iff Ipi.IsStartup sent_iff
    fun id => ⟨⟨lapic.destination id, 0x608#32⟩, by simp [Lapic.messages],
      by simp [Ipi.IsStartup]⟩
  have numbered_iff :
      ((∀ destination, Addressed lapic (table.lapics items).length boot
          destination ↔ Target (table.lapics items) boot destination) ∧
        ∀ entry ∈ table.lapics items, entry.Enabled →
          entry.id.toNat < (table.lapics items).length) ↔
        Numbered (table.lapics items) boot lapic := by
    cases mode : lapic.x2mode with
    | true => exact addressed_iff_x2mode mode distinct few booted
    | false => exact addressed_iff_xmode mode booted
  rw [← numbered_iff, numCpus_eq]
  constructor
  · intro reaches
    refine ⟨?_, ?_⟩
    · intro destination
      rw [← init_iff, reaches.init]
    · intro entry listed enabled
      have index := reaches.indexed entry listed enabled
      rwa [Lapic.cpuOf_apicIdRegister] at index
  · rintro ⟨same, small⟩
    refine ⟨?_, ?_, ?_⟩
    · intro destination
      rw [init_iff, same]
    · intro destination
      rw [startup_iff, same]
    · intro entry listed enabled
      rw [Lapic.cpuOf_apicIdRegister]
      exact small entry listed enabled

/-- A table of enabled local APIC entries with the given ids. -/
def tableOf (ids : List (BitVec 8)) : Madt where
  length := BitVec.ofNat 32 (Madt.headerSize + 8 * ids.length)
  byte := fun offset =>
    match (offset - Madt.headerSize) % 8 with
    | 1 => 8#8
    | 3 => ids.getD ((offset - Madt.headerSize) / 8) 0#8
    | 4 => 1#8
    | _ => 0#8

theorem reachesEnabled_iff_sample :
    ∃ last, Runs.run (step sampleInfo) sampleBegin sampleActions = some last ∧
      last.pc = .done ∧
      (ReachesEnabled ((tableOf [0#8, 1#8]).lapics [44, 52]) true 0#8 2
          last.lapic.sent ↔
        Numbered ((tableOf [0#8, 1#8]).lapics [44, 52]) 0#8
          sampleBegin.lapic) := by
  obtain ⟨last, ran, ended, -⟩ := sampleActions_run
  refine ⟨last, ran, ended, ?_⟩
  exact reachesEnabled_iff (tableOf [0#8, 1#8]) [44, 52] 0#8 sampleInfo _ _ _
    sampleBegin.lapic _ last
    (.cons (by decide) (.cons (by decide) .nil)) (by decide) (by decide)
    ⟨⟨0#8, 1#32⟩, by decide, by decide, rfl⟩ (by decide +kernel) (by decide)
    rfl ran ended

/-- Processors with the ids 0, 1 and 3 are counted as three, and the messages
go to 1 and 2. -/
theorem third_processor_missed :
    ¬ ∀ (table : Madt) (items : List Nat) (boot : BitVec 8) (info : SmpInfo)
      (machine : Machine) (apBoot : ApInfo) (stackOf : Nat → Word)
      (lapic : Lapic) (actions : List SmpAction) (last : Smp),
      Madt.Tiled table Madt.headerSize items →
      ((table.lapics items).map Madt.LapicEntry.id).Nodup →
      (table.lapics items).length < 256 →
      (∃ entry ∈ table.lapics items, entry.Enabled ∧ entry.id = boot) →
      table.getMadtCount Madt.lapicType = some info.numCpus →
      info.cpu =
        Lapic.cpuOf lapic.x2mode (Lapic.apicIdRegister lapic.x2mode boot) →
      lapic.sent = [] →
      Runs.run (step info) (begin machine apBoot stackOf lapic) actions =
        some last →
      last.pc = .done →
      ReachesEnabled (table.lapics items) lapic.x2mode boot info.numCpus
        last.lapic.sent := by
  intro always
  have observed : (Runs.run (step { sampleInfo with numCpus := 3 }) sampleBegin
      (List.replicate 11 .boot ++ [.ap 1, .ap 1] ++
        List.replicate 13 .boot)).map
      (fun last => (last.pc, last.lapic.sent.any
        fun ipi => ipi.destination == 3#32)) = some (.done, false) := by
    decide +kernel
  obtain ⟨last, ran, same⟩ := Option.map_eq_some_iff.mp observed
  obtain ⟨ended, missed⟩ := Prod.mk.inj same
  have reaches := always (tableOf [0#8, 1#8, 3#8]) [44, 52, 60] 0#8
    { sampleInfo with numCpus := 3 } _ _ _ sampleBegin.lapic _ last
    (.cons (by decide) (.cons (by decide) (.cons (by decide) .nil)))
    (by decide) (by decide) ⟨⟨0#8, 1#32⟩, by decide, by decide, rfl⟩
    (by decide +kernel) (by decide) rfl ran ended
  obtain ⟨ipi, sent, -, destination⟩ := (reaches.init 3#32).mpr
    ⟨⟨3#8, 1#32⟩, by decide, by decide, by decide, by decide⟩
  rw [List.any_eq_false] at missed
  exact missed ipi sent (by simp [destination])

end Smp
end PivotOs
