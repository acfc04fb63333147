import PivotOs.Paging.Defs

/-!
# Starting the other processors

`start_aps` in `cpu/smp.c` starts one processor after another through a
mailbox in the frame at `0x8000`: it takes a frame for the stack, writes its top
into the mailbox, sends the messages that make the processor run the
trampoline, waits for `ready`, and goes on to the next.  The boot processor is
cut at every access to something that a started processor may read or write.
A started processor loads the stack from the mailbox and later sets `ready`.

The local APIC is hardware: a write to the command register sends a message.
In x2APIC mode the whole 64 bits of the register are written at once, with the
destination in the upper half.  In xAPIC mode the lower half sends, and the
destination is what the register of the upper half holds in its top byte.
-/

namespace PivotOs

/-! ## The local APIC -/

/-- A message between processors. -/
structure Ipi where
  /-- The APIC id it is sent to. -/
  destination : BitVec 32
  /-- The lower half of the command register. -/
  command : BitVec 32
  deriving DecidableEq

/-- The local APIC of the boot processor. -/
structure Lapic where
  /-- `KLAPIC.x2mode`. -/
  x2mode : Bool
  /-- The memory-mapped registers, by offset. -/
  registers : BitVec 32 → BitVec 32
  /-- The messages sent, newest first. -/
  sent : List Ipi

namespace Lapic

/-- `APIC_ICRLO_OFF`. -/
def icrLoOff : BitVec 32 := 0x300#32

/-- `APIC_ICRHI_OFF`. -/
def icrHiOff : BitVec 32 := 0x310#32

/-- `APIC_TIMER_LVT_OFFSET`. -/
def timerLvtOffset : BitVec 32 := 0x320#32

/-- `APIC_TIMER_INITIAL_COUNT_OFF`. -/
def timerInitialCountOff : BitVec 32 := 0x380#32

/-- `APIC_TIMER_CONFIG_OFF`. -/
def timerConfigOff : BitVec 32 := 0x3E0#32

/-- `wrmsr` to a register of the x2APIC. -/
def wrmsr (address : BitVec 32) (value : Word) (l : Lapic) : Lapic :=
  if address = 0x830#32 then
    { l with
      sent :=
        { destination := (value >>> 32).setWidth 32
          command := value.setWidth 32 } :: l.sent }
  else l

/-- A store to a memory-mapped register. -/
def store (off : BitVec 32) (value : BitVec 32) (l : Lapic) : Lapic :=
  { l with
    registers := fun other => if other = off then value else l.registers other
    sent :=
      if off = icrLoOff then
        { destination := l.registers icrHiOff >>> 24
          command := value } :: l.sent
      else l.sent }

/-- `write_apic_register`. -/
def writeApicRegister (regOff : BitVec 32) (val : Word) (l : Lapic) : Lapic :=
  if l.x2mode then l.wrmsr (regOff >>> 4 + 0x800#32) val
  else l.store regOff (val.setWidth 32)

/-- The registers that `delay` writes through `start_apic_timer`, for the
vector `APIC_ONESHOT_IDT_ENTRY`. -/
def delay (oneshot : Word) (numTicks : Word) (l : Lapic) : Lapic :=
  ((l.writeApicRegister timerLvtOffset oneshot).writeApicRegister
    timerInitialCountOff numTicks).writeApicRegister timerConfigOff 0x1#64

/-- `ICR_INIT`. -/
def icrInit : Word := 0x500#64

/-- `ICR_ASSERT`. -/
def icrAssert : Word := 0x4000#64

/-- `ICR_LEVEL`. -/
def icrLevel : Word := 0x8000#64

/-- `ICR_STARTUP`. -/
def icrStartup : Word := 0x600#64

/-- A round of the loop of `start_ap`. -/
def startup (id : Word) (trampolinePage : BitVec 8) (oneshot numTicks : Word)
    (l : Lapic) : Lapic :=
  (l.writeApicRegister icrLoOff
    (id <<< 32 ||| trampolinePage.setWidth 64 ||| icrStartup)).delay
      oneshot numTicks

/-- `start_ap`. -/
def startAp (id : Word) (trampolinePage : BitVec 8) (oneshot numTicks : Word)
    (l : Lapic) : Lapic :=
  let l := l.writeApicRegister icrLoOff
    (id <<< 32 ||| icrInit ||| icrAssert ||| icrLevel)
  let l := l.writeApicRegister icrLoOff (id <<< 32 ||| icrInit ||| icrLevel)
  (l.startup id trampolinePage oneshot numTicks).startup id trampolinePage
    oneshot numTicks

end Lapic

/-! ## The mailbox -/

/-- `ap_info_t`. -/
structure ApInfo where
  /-- `pml4`. -/
  pml4 : Word
  /-- `stack_top`. -/
  stackTop : BitVec 32
  /-- `gdtr`. -/
  gdtr : Word
  /-- `idtr`. -/
  idtr : Word
  /-- `ready`. -/
  ready : BitVec 8

/-- What is stored in `stack_top` for a frame: 32 bits of its end. -/
def stackTopOf (frame : Word) : BitVec 32 :=
  (frame + BitVec.ofNat 64 pageSize).setWidth 32

/-- `ap_boot->stack_top - PAGE_SIZE`, an unsigned difference of 32 bits. -/
def stackBottom (stackTop : BitVec 32) : Word :=
  (stackTop - BitVec.ofNat 32 pageSize).setWidth 64

/-- What `start_aps` finds in `kinfo` and in the kernel's image. -/
structure SmpInfo where
  /-- `KSMP.num_cpus`. -/
  numCpus : Nat
  /-- `CPU` of the boot processor. -/
  cpu : BitVec 8
  /-- `KSMP.idle->vmm.p4_tbl`. -/
  idle : Word
  /-- The address of `gdtr`. -/
  gdtr : Word
  /-- The address of `idtr`. -/
  idtr : Word
  /-- The vector `APIC_ONESHOT_IDT_ENTRY`. -/
  oneshot : Word
  /-- `KLAPIC.ms_interval`. -/
  msInterval : Word

/-- Where the boot processor is in `start_aps`. -/
inductive Pc
  | entry
  | copy
  | head
  | alloc
  | store (frame : Word)
  | publish
  | mapIdle
  | mapKernel
  | start
  | wait
  | release
  | finish
  | done
  deriving DecidableEq

/-- Where another processor is. -/
inductive ApPhase
  | off
  | started
  | loaded (stackTop : BitVec 32)
  | signalled
  deriving DecidableEq

/-- The state that `start_aps` works on, with two records for the statements
about it: the answers of `alloc_frame` for the processors, newest first, and
whether `stack_top` was ever written for a processor before the last one had
signalled. -/
structure Smp where
  /-- Page tables and frames. -/
  machine : Machine
  /-- `*ap_boot`. -/
  apBoot : ApInfo
  /-- `KCPUS[id].stack`. -/
  stackOf : Nat → Word
  /-- The local APIC. -/
  lapic : Lapic
  /-- The loop variable. -/
  id : Nat
  /-- Where the boot processor is. -/
  pc : Pc
  /-- Where the others are, by APIC id. -/
  aps : Nat → ApPhase
  /-- The stacks taken. -/
  answers : List (Nat × Word)
  /-- Whether the mailbox was overwritten too early. -/
  early : Bool

/-- A step of the boot processor or of another one. -/
inductive SmpAction
  | boot
  | ap (id : Nat)

namespace Smp

/-- The state in which `start_aps` is called. -/
def begin (machine : Machine) (apBoot : ApInfo) (stackOf : Nat → Word)
    (lapic : Lapic) : Smp where
  machine := machine
  apBoot := apBoot
  stackOf := stackOf
  lapic := lapic
  id := 0
  pc := .entry
  aps := fun _ => .off
  answers := []
  early := false

/-- The processor for which `stack_top` was last written, when its value is
about to be replaced, has signalled. -/
def lastSignalled (s : Smp) : Bool :=
  match s.answers with
  | _ :: (last, _) :: _ => s.aps last == .signalled
  | _ => true

/-- The processors that the messages of one `start_ap` start. -/
def startedBy (before after : Lapic) (aps : Nat → ApPhase) : Nat → ApPhase :=
  fun id =>
    if (after.sent.take (after.sent.length - before.sent.length)).any
        fun ipi => ipi.destination.toNat == id then .started
    else aps id

/-- One step of `start_aps`. -/
def bootStep (info : SmpInfo) (s : Smp) : Option Smp :=
  match s.pc with
  | .entry =>
      (Machine.mapAddr 0x8000#64 0x8000#64 kernelPtEntry s.machine.pml4
        s.machine).map fun machine =>
          { s with machine := machine, pc := .copy }
  | .copy =>
      some
        { s with
          apBoot :=
            { pml4 := paddr s.machine.pml4
              stackTop := 0#32
              gdtr := info.gdtr
              idtr := info.idtr
              ready := 0#8 }
          pc := .head }
  | .head =>
      if s.id < info.numCpus then
        if s.id = info.cpu.toNat then some { s with id := s.id + 1 }
        else some { s with pc := .alloc }
      else some { s with pc := .finish }
  | .alloc =>
      s.machine.allocFrame.map fun result =>
        { s with
          machine := result.2
          answers := (s.id, result.1) :: s.answers
          pc := .store result.1 }
  | .store frame =>
      some
        { s with
          apBoot := { s.apBoot with stackTop := stackTopOf frame }
          early := s.early || !s.lastSignalled
          pc := .publish }
  | .publish =>
      some
        { s with
          stackOf := fun other =>
            if other = s.id then stackBottom s.apBoot.stackTop
            else s.stackOf other
          pc := .mapIdle }
  | .mapIdle =>
      (Machine.mapAddr (s.stackOf s.id) (vaddr (s.stackOf s.id)) kernelPtEntry
        info.idle s.machine).map fun machine =>
          { s with machine := machine, pc := .mapKernel }
  | .mapKernel =>
      (Machine.mapAddr (stackBottom s.apBoot.stackTop)
        (stackBottom s.apBoot.stackTop) kernelPtEntry s.machine.pml4
        s.machine).map fun machine =>
          { s with machine := machine, pc := .start }
  | .start =>
      let lapic := s.lapic.startAp (BitVec.ofNat 64 s.id) 0x8#8 info.oneshot
        (info.msInterval * 200#64 / 1000#64)
      some
        { s with
          lapic := lapic
          aps := startedBy s.lapic lapic s.aps
          pc := .wait }
  | .wait =>
      if s.apBoot.ready = 0#8 then some s else some { s with pc := .release }
  | .release =>
      some
        { s with
          machine :=
            { s.machine with
              pmm := s.machine.pmm.pmmClearBit
                (stackBottom s.apBoot.stackTop) }
          id := s.id + 1
          pc := .head }
  | .finish =>
      some
        { s with
          machine :=
            { s.machine with
              pmm := s.machine.pmm.pmmClearBit 0x8000#64 }
          pc := .done }
  | .done => none

/-- One step of a started processor: the trampoline loads the stack, and
`set_ap_ready` comes later. -/
def apStep (id : Nat) (s : Smp) : Option Smp :=
  let enter := fun phase : ApPhase => fun other =>
    if other = id then phase else s.aps other
  match s.aps id with
  | .off => none
  | .started => some { s with aps := enter (.loaded s.apBoot.stackTop) }
  | .loaded _ =>
      some
        { s with
          apBoot := { s.apBoot with ready := 1#8 }
          aps := enter .signalled }
  | .signalled => none

/-- One step of the system. -/
def step (info : SmpInfo) (s : Smp) : SmpAction → Option Smp
  | .boot => bootStep info s
  | .ap id => apStep id s

end Smp
end PivotOs
