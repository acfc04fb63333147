import PivotOs.Library.WordStack
import PivotOs.Thread.Defs

/-!
# Interrupt stubs

`cpu/interrupts.asm`.  A stub pushes what the processor has not pushed itself,
so that a `cpu_status_t` lies on the stack, and calls a handler in C with its
address.  A stub for an interrupt request takes the address that the handler
returns for its new stack pointer; a stub for an exception keeps its own.
Words of memory are kept by address, and what the processor does on an
interrupt and on `iretq` is that of the 64-bit mode.
-/

namespace PivotOs
namespace Interrupts

/-- The general registers that the stubs save. -/
inductive Reg
  | rax | rbx | rcx | rdx | rbp | rsi | rdi
  | r8 | r9 | r10 | r11 | r12 | r13 | r14 | r15
  deriving DecidableEq

/-- A processor and the memory it sees. -/
structure Processor where
  /-- The general registers but for `rsp`. -/
  regs : Reg → Word
  rip : Word
  cs : Word
  rflags : Word
  rsp : Word
  ss : Word
  /-- The word at an address. -/
  mem : Word → Word

/-- Bytes in a word. -/
def wordSize : Word := 8#64

/-- The `cpu_status_t` at an address. -/
def statusAt (mem : Word → Word) (address : Word) : CpuStatus where
  r15 := mem address
  r14 := mem (address + 8#64)
  r13 := mem (address + 16#64)
  r12 := mem (address + 24#64)
  r11 := mem (address + 32#64)
  r10 := mem (address + 40#64)
  r9 := mem (address + 48#64)
  r8 := mem (address + 56#64)
  rdi := mem (address + 64#64)
  rsi := mem (address + 72#64)
  rbp := mem (address + 80#64)
  rdx := mem (address + 88#64)
  rcx := mem (address + 96#64)
  rbx := mem (address + 104#64)
  rax := mem (address + 112#64)
  intNo := mem (address + 120#64)
  errCode := mem (address + 128#64)
  rip := mem (address + 136#64)
  cs := mem (address + 144#64)
  rflags := mem (address + 152#64)
  rsp := mem (address + 160#64)
  ss := mem (address + 168#64)

namespace Processor

/-- The registers as a `cpu_status_t`. -/
def status (p : Processor) (intNo errCode : Word) : CpuStatus where
  r15 := p.regs .r15
  r14 := p.regs .r14
  r13 := p.regs .r13
  r12 := p.regs .r12
  r11 := p.regs .r11
  r10 := p.regs .r10
  r9 := p.regs .r9
  r8 := p.regs .r8
  rdi := p.regs .rdi
  rsi := p.regs .rsi
  rbp := p.regs .rbp
  rdx := p.regs .rdx
  rcx := p.regs .rcx
  rbx := p.regs .rbx
  rax := p.regs .rax
  intNo := intNo
  errCode := errCode
  rip := p.rip
  cs := p.cs
  rflags := p.rflags
  rsp := p.rsp
  ss := p.ss

end Processor

/-- The general registers in a `cpu_status_t`. -/
def gprs (status : CpuStatus) : Reg → Word
  | .rax => status.rax
  | .rbx => status.rbx
  | .rcx => status.rcx
  | .rdx => status.rdx
  | .rbp => status.rbp
  | .rsi => status.rsi
  | .rdi => status.rdi
  | .r8 => status.r8
  | .r9 => status.r9
  | .r10 => status.r10
  | .r11 => status.r11
  | .r12 => status.r12
  | .r13 => status.r13
  | .r14 => status.r14
  | .r15 => status.r15

/-- A processor with the registers of a `cpu_status_t`. -/
def resume (status : CpuStatus) (mem : Word → Word) : Processor where
  regs := gprs status
  rip := status.rip
  cs := status.cs
  rflags := status.rflags
  rsp := status.rsp
  ss := status.ss
  mem := mem

/-! ## Instructions -/

/-- The instructions of the stubs. -/
inductive Instr
  | pushImm (value : Word)
  | push (reg : Reg)
  | pop (reg : Reg)
  | movRdiRsp
  | cld
  | callHandler
  | movRspRax
  | addRsp (count : Word)
  | iretq

/-- A handler in C, from its call to its return.  It returns with the stack
pointer that it was called with. -/
structure Handler where
  /-- What it does. -/
  run : Processor → Processor
  /-- It gives its stack back. -/
  rsp_run : ∀ p, (run p).rsp = p.rsp

namespace Processor

/-- Push a word. -/
def pushWord (value : Word) (p : Processor) : Processor :=
  let pushed := WordStack.push wordSize ⟨p.mem, p.rsp⟩ value
  { p with mem := pushed.mem, rsp := pushed.sp }

/-- One instruction. -/
def step (handler : Handler) (p : Processor) : Instr → Processor
  | .pushImm value => p.pushWord value
  | .push reg => p.pushWord (p.regs reg)
  | .pop reg =>
      { p with
        regs := Function.update p.regs reg (p.mem p.rsp)
        rsp := p.rsp + wordSize }
  | .movRdiRsp => { p with regs := Function.update p.regs .rdi p.rsp }
  | .cld => { p with rflags := p.rflags &&& ~~~0x400#64 }
  | .callHandler => handler.run p
  | .movRspRax => { p with rsp := p.regs .rax }
  | .addRsp count => { p with rsp := p.rsp + count }
  | .iretq =>
      { p with
        rip := p.mem p.rsp
        cs := p.mem (p.rsp + 8#64)
        rflags := p.mem (p.rsp + 16#64)
        rsp := p.mem (p.rsp + 24#64)
        ss := p.mem (p.rsp + 32#64) }

/-- Some instructions. -/
def exec (handler : Handler) (code : List Instr) (p : Processor) :
    Processor :=
  code.foldl (step handler) p

end Processor

/-- The order in which `save_context` pushes. -/
def savedRegs : List Reg :=
  [.rax, .rbx, .rcx, .rdx, .rbp, .rsi, .rdi, .r8, .r9, .r10, .r11, .r12, .r13,
    .r14, .r15]

/-- `save_context`. -/
def saveContext : List Instr := savedRegs.map .push

/-- The order in which `restore_context` pops. -/
def restoredRegs : List Reg :=
  [.r15, .r14, .r13, .r12, .r11, .r10, .r9, .r8, .rdi, .rsi, .rbp, .rdx, .rcx,
    .rbx, .rax]

/-- `restore_context`. -/
def restoreContext : List Instr := restoredRegs.map .pop ++ [.addRsp 16#64]

/-- A stub up to its call, behind the words of its own. -/
def enterHandler : List Instr := saveContext ++ [.movRdiRsp, .cld]

/-- The stub `irq` before the call of its handler. -/
def irqEntry : List Instr := [.pushImm 0#64, .pushImm 0#64] ++ enterHandler

/-- The stub `irq`. -/
def irq : List Instr :=
  irqEntry ++ [.callHandler, .movRspRax] ++ restoreContext ++ [.iretq]

/-- The vectors with a stub `isr_err_code`. -/
def errCodeVectors : List Nat := [8, 10, 11, 12, 13, 14, 17, 30]

/-- The stub of an exception before the call of its handler. -/
def isrEntry (vector : Nat) : List Instr :=
  (if vector ∈ errCodeVectors then [] else [.pushImm 0#64]) ++
    .pushImm (BitVec.ofNat 64 vector) :: enterHandler

/-- The stub `isr` or `isr_err_code` of an exception. -/
def isr (vector : Nat) : List Instr :=
  isrEntry vector ++ [.callHandler] ++ restoreContext ++ [.iretq]

/-! ## Interrupts -/

namespace Processor

/-- User code was interrupted. -/
def InUser (p : Processor) : Prop := p.cs &&& 3#64 ≠ 0#64

instance (p : Processor) : Decidable p.InUser :=
  inferInstanceAs (Decidable (_ ≠ _))

/-- The stack that an interrupt is handled on: `rsp0` of the TSS for user code,
and the current one otherwise, aligned to 16 bytes. -/
def entryStack (rsp0 : Word) (p : Processor) : Word :=
  (if p.InUser then rsp0 else p.rsp) &&& ~~~0xF#64

/-- The flags that are cleared by an interrupt gate or a trap gate. -/
def clearedFlags (trap : Bool) : Word :=
  if trap then 0x34100#64 else 0x34300#64

/-- What the processor does on an interrupt, before the first instruction of
the stub: it pushes where it was, and an error code if the interrupt has
one. -/
def interrupt (rsp0 : Word) (trap : Bool) (errCode : Option Word)
    (p : Processor) : Processor :=
  let pushed := WordStack.pushAll wordSize
    ([p.ss, p.rsp, p.rflags, p.cs, p.rip] ++ errCode.toList)
    ⟨p.mem, p.entryStack rsp0⟩
  { p with
    cs := 0x8#64
    ss := if p.InUser then 0#64 else p.ss
    rflags := p.rflags &&& ~~~clearedFlags trap
    mem := pushed.mem
    rsp := pushed.sp }

/-- The state in which the handler of a request is called. -/
def handlerCalled (rsp0 : Word) (trap : Bool) (p : Processor) : Processor :=
  (p.interrupt rsp0 trap none).exec ⟨id, fun _ => rfl⟩ irqEntry

/-- The state after a request has been handled. -/
def handled (rsp0 : Word) (trap : Bool) (handler : Handler) (p : Processor) :
    Processor :=
  (p.interrupt rsp0 trap none).exec handler irq

/-- The state in which `exception_handler` is called. -/
def exceptionCalled (rsp0 : Word) (vector : Nat) (errCode : Option Word)
    (p : Processor) : Processor :=
  (p.interrupt rsp0 false errCode).exec ⟨id, fun _ => rfl⟩ (isrEntry vector)

/-- The state after an exception has been handled. -/
def exceptionHandled (rsp0 : Word) (vector : Nat) (errCode : Option Word)
    (handler : Handler) (p : Processor) : Processor :=
  (p.interrupt rsp0 false errCode).exec handler (isr vector)

end Processor
end Interrupts
end PivotOs
