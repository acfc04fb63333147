import PivotOs.Interrupts.Defs

/-!
# Frames of interrupts

What a stub leaves on the stack is a `cpu_status_t` with the registers of the
interrupted code, and what it loads afterwards is the `cpu_status_t` at the new
stack pointer, wherever that lies.
-/

namespace PivotOs
namespace Interrupts

variable {handler : Handler} {p : Processor} {code later : List Instr}

namespace Processor

/-- Push some words. -/
def pushWords (values : List Word) (p : Processor) : Processor :=
  let pushed := WordStack.pushAll wordSize values ⟨p.mem, p.rsp⟩
  { p with mem := pushed.mem, rsp := pushed.sp }

@[simp] theorem exec_nil : p.exec handler [] = p := rfl

@[simp] theorem exec_cons (instr : Instr) :
    p.exec handler (instr :: code) = (p.step handler instr).exec handler code :=
  rfl

theorem exec_append :
    p.exec handler (code ++ later) =
      (p.exec handler code).exec handler later :=
  List.foldl_append

@[simp] theorem pushWords_nil : p.pushWords [] = p := rfl

theorem pushWord_pushWords (value : Word) (values : List Word) :
    (p.pushWord value).pushWords values = p.pushWords (value :: values) := rfl

theorem pushWords_append (values others : List Word) :
    (p.pushWords values).pushWords others = p.pushWords (values ++ others) := by
  simp only [pushWords, WordStack.pushAll_append]

@[simp] theorem regs_pushWords (values : List Word) :
    (p.pushWords values).regs = p.regs := rfl

/-- Pushing registers changes none of them. -/
theorem exec_push (regs : List Reg) :
    p.exec handler (regs.map .push) = p.pushWords (regs.map p.regs) := by
  induction regs generalizing p with
  | nil => rfl
  | cons reg regs inductionHypothesis =>
      rw [List.map_cons, exec_cons, List.map_cons, ← pushWord_pushWords]
      exact inductionHypothesis

/-- Every register popped gets the next word of the stack. -/
theorem exec_pop
    {regs : List Reg}
    (once : regs.Nodup) :
    p.exec handler (regs.map .pop) =
      { p with
        regs := fun reg =>
          if reg ∈ regs then
            p.mem (p.rsp + BitVec.ofNat 64 (regs.idxOf reg) * wordSize)
          else p.regs reg
        rsp := p.rsp + BitVec.ofNat 64 regs.length * wordSize } := by
  induction regs generalizing p with
  | nil => simp
  | cons first regs inductionHypothesis =>
      obtain ⟨new, others⟩ := List.nodup_cons.mp once
      rw [List.map_cons, exec_cons, inductionHypothesis others]
      simp only [step, List.length_cons, WordStack.ofNat_succ]
      congr 1
      · funext reg
        by_cases same : reg = first
        · subst same
          simp [new]
        · by_cases listed : reg ∈ regs
          · rw [if_pos listed, if_pos (List.mem_cons_of_mem first listed),
              List.idxOf_cons_ne _ (Ne.symm same), WordStack.ofNat_succ]
            congr 1
            ring
          · rw [if_neg listed, Function.update_of_ne same,
              if_neg (by simp [same, listed])]
      · ring

end Processor

/-! ## Frames -/

/-- A `cpu_status_t` is made of the words from its address up. -/
theorem statusAt_eq
    {mem : Word → Word} {address : Word} {status : CpuStatus}
    (words : WordStack.read wordSize mem address 22 =
      [status.r15, status.r14, status.r13, status.r12, status.r11, status.r10,
        status.r9, status.r8, status.rdi, status.rsi, status.rbp, status.rdx,
        status.rcx, status.rbx, status.rax, status.intNo, status.errCode,
        status.rip, status.cs, status.rflags, status.rsp, status.ss]) :
    statusAt mem address = status := by
  simp only [WordStack.read, wordSize, BitVec.add_assoc, BitVec.reduceAdd,
    List.cons.injEq, and_true] at words
  simp only [statusAt, words]

/-- The end of every stub loads the `cpu_status_t` at the stack pointer. -/
theorem exec_restore :
    p.exec handler (restoreContext ++ [.iretq]) =
      resume (statusAt p.mem p.rsp) p.mem := by
  rw [restoreContext, List.append_assoc, Processor.exec_append,
    Processor.exec_pop (by decide)]
  have all : ∀ reg, reg ∈ restoredRegs := by
    intro reg
    cases reg <;> decide
  have words : ∀ reg, p.mem (p.rsp +
      BitVec.ofNat 64 (restoredRegs.idxOf reg) * wordSize) =
        gprs (statusAt p.mem p.rsp) reg := by
    intro reg
    cases reg <;> simp [restoredRegs, wordSize, gprs, statusAt]
  simp only [all, if_true, words]
  simp [Processor.exec, Processor.step, resume, statusAt, restoredRegs,
    wordSize, BitVec.add_assoc]

namespace Processor

/-- What the processor and a stub push, in this order; `own` are the words that
the stub pushes before the registers. -/
def frameWords (errCode : Option Word) (own : List Word) (p : Processor) :
    List Word :=
  [p.ss, p.rsp, p.rflags, p.cs, p.rip] ++ errCode.toList ++ own ++
    savedRegs.map p.regs

/-- The stack after the pushes. -/
def frameStack (rsp0 : Word) (errCode : Option Word) (own : List Word)
    (p : Processor) : WordStack.State 64 Word :=
  WordStack.pushAll wordSize (p.frameWords errCode own)
    ⟨p.mem, p.entryStack rsp0⟩

/-- The state in which a stub that pushes these words calls its handler. -/
theorem exec_entry
    (rsp0 : Word) (trap : Bool) (errCode : Option Word) (own : List Word) :
    let stack := p.frameStack rsp0 errCode own
    (p.interrupt rsp0 trap errCode).exec handler
        (own.map .pushImm ++ enterHandler) =
      { regs := Function.update p.regs .rdi stack.sp
        rip := p.rip
        cs := 0x8#64
        rflags := p.rflags &&& ~~~clearedFlags trap &&& ~~~0x400#64
        rsp := stack.sp
        ss := if p.InUser then 0#64 else p.ss
        mem := stack.mem } := by
  have pushOwn : ∀ q : Processor,
      q.exec handler (own.map .pushImm) = q.pushWords own := by
    intro q
    induction own generalizing q with
    | nil => rfl
    | cons value own inductionHypothesis =>
        rw [List.map_cons, exec_cons, ← pushWord_pushWords]
        exact inductionHypothesis _
  rw [enterHandler, exec_append, pushOwn, saveContext, exec_append, exec_push]
  simp only [exec_cons, exec_nil, step, regs_pushWords, pushWords_append]
  simp only [pushWords, interrupt, frameStack, frameWords, List.append_assoc,
    WordStack.pushAll_append]

/-- Nothing but the frame is written. -/
theorem mem_frameStack
    {rsp0 address : Word} {errCode : Option Word} {own : List Word}
    (outside : ¬ WordStack.Covers wordSize (p.entryStack rsp0)
      (p.frameWords errCode own).length address) :
    (p.frameStack rsp0 errCode own).mem address = p.mem address :=
  WordStack.mem_pushAll_of_not_covers outside

/-- The words from the stack pointer up are those pushed, the last first. -/
theorem read_frameStack
    {rsp0 : Word} {errCode : Option Word} {own : List Word}
    (short : own.length ≤ 2) :
    WordStack.read wordSize (p.frameStack rsp0 errCode own).mem
        (p.frameStack rsp0 errCode own).sp
        (p.frameWords errCode own).length =
      (p.frameWords errCode own).reverse := by
  refine WordStack.read_pushAll (by decide) ?_
  have bytes : wordSize.toNat = 8 := by decide
  have regs : (savedRegs.map p.regs).length = 15 := rfl
  have code : errCode.toList.length ≤ 1 := by
    cases errCode <;> simp
  simp only [frameWords, List.length_append, List.length_cons, List.length_nil,
    regs, bytes]
  omega

/-- With two words besides the registers and what every interrupt pushes, there
is a `cpu_status_t` on the stack. -/
theorem statusAt_frameStack
    {rsp0 intNo second : Word} {errCode : Option Word} {own : List Word}
    (two : errCode.toList ++ own = [second, intNo]) :
    statusAt (p.frameStack rsp0 errCode own).mem
        (p.frameStack rsp0 errCode own).sp = p.status intNo second := by
  have words : p.frameWords errCode own =
      [p.ss, p.rsp, p.rflags, p.cs, p.rip] ++ [second, intNo] ++
        savedRegs.map p.regs := by
    rw [frameWords, List.append_assoc [_, _, _, _, _], two]
  have short : own.length ≤ 2 := by
    have both := congrArg List.length two
    simp only [List.length_append, List.length_cons, List.length_nil] at both
    omega
  apply statusAt_eq
  have back : WordStack.read wordSize (p.frameStack rsp0 errCode own).mem
      (p.frameStack rsp0 errCode own).sp _ = _ := p.read_frameStack short
  rw [words] at back
  exact back

/-- The state in which the handler of a request is called. -/
theorem handlerCalled_eq (rsp0 : Word) (trap : Bool) :
    let stack := p.frameStack rsp0 none [0#64, 0#64]
    p.handlerCalled rsp0 trap =
      { regs := Function.update p.regs .rdi stack.sp
        rip := p.rip
        cs := 0x8#64
        rflags := p.rflags &&& ~~~clearedFlags trap &&& ~~~0x400#64
        rsp := stack.sp
        ss := if p.InUser then 0#64 else p.ss
        mem := stack.mem } :=
  exec_entry rsp0 trap none [0#64, 0#64]

/-- What the handler of a request has left decides what goes on. -/
theorem handled_eq (rsp0 : Word) (trap : Bool) (handler : Handler) :
    let returned := handler.run (p.handlerCalled rsp0 trap)
    p.handled rsp0 trap handler =
      resume (statusAt returned.mem (returned.regs .rax)) returned.mem := by
  have entry : (p.interrupt rsp0 trap none).exec handler irqEntry =
      p.handlerCalled rsp0 trap :=
    (exec_entry rsp0 trap none [0#64, 0#64]).trans
      (p.handlerCalled_eq rsp0 trap).symm
  intro returned
  rw [handled, irq, List.append_assoc, exec_append, exec_restore, exec_append,
    entry]
  rfl

end Processor

/-! ## Requests -/

/-- The handler of a request is called with the address of a frame that holds
the registers of the interrupted code, on a stack where nothing else has
changed.  Afterwards the processor has the registers of the frame whose address
the handler returned; when that is the frame it was called with, as it was, the
interrupted code does not notice. -/
theorem irq_switches
    (rsp0 : Word) (trap : Bool) (handler : Handler) (p : Processor) :
    let called := p.handlerCalled rsp0 trap
    let returned := handler.run called
    statusAt called.mem (called.regs .rdi) = p.status 0#64 0#64 ∧
    (∀ address, ¬ WordStack.Covers wordSize (p.entryStack rsp0) 22 address →
      called.mem address = p.mem address) ∧
    p.handled rsp0 trap handler =
      resume (statusAt returned.mem (returned.regs .rax)) returned.mem ∧
    (returned.regs .rax = called.regs .rdi →
      statusAt returned.mem (called.regs .rdi) = p.status 0#64 0#64 →
        p.handled rsp0 trap handler = { p with mem := returned.mem }) := by
  intro called returned
  have called_eq : called = _ := p.handlerCalled_eq rsp0 trap
  have result : p.handled rsp0 trap handler =
      resume (statusAt returned.mem (returned.regs .rax)) returned.mem :=
    p.handled_eq rsp0 trap handler
  clear_value returned called
  subst called_eq
  simp only [Function.update_self]
  refine ⟨Processor.statusAt_frameStack rfl, ?_, result, ?_⟩
  · intro address outside
    exact Processor.mem_frameStack outside
  · intro same kept
    rw [result, same, kept]
    have regs : gprs (p.status 0#64 0#64) = p.regs := by
      funext reg
      cases reg <;> rfl
    rw [resume, regs]
    rfl

/-! ## Exceptions -/

/-- The words that the stub of an exception pushes before the registers. -/
def ownWords (vector : Nat) : List Word :=
  if vector ∈ errCodeVectors then [BitVec.ofNat 64 vector]
  else [0#64, BitVec.ofNat 64 vector]

theorem isrEntry_eq (vector : Nat) :
    isrEntry vector = (ownWords vector).map .pushImm ++ enterHandler := by
  unfold isrEntry ownWords
  split <;> rfl

namespace Processor

/-- A word of the frame, counted from the stack pointer. -/
theorem word_frameStack
    {rsp0 : Word} {errCode : Option Word} {own : List Word}
    (short : own.length ≤ 2)
    {i : Nat}
    (inside : i < (p.frameWords errCode own).reverse.length) :
    (p.frameStack rsp0 errCode own).mem ((p.frameStack rsp0 errCode own).sp +
        BitVec.ofNat 64 i * wordSize) =
      (p.frameWords errCode own).reverse[i] := by
  have back : WordStack.read wordSize (p.frameStack rsp0 errCode own).mem
      (p.frameStack rsp0 errCode own).sp _ = _ := p.read_frameStack short
  simp only [← back]
  exact (WordStack.getElem_read _ _ _).symm

/-- The frame that `exception_handler` is called with. -/
def exceptionFrame (rsp0 : Word) (vector : Nat) (errCode : Option Word)
    (p : Processor) : CpuStatus :=
  let called := p.exceptionCalled rsp0 vector errCode
  statusAt called.mem (called.regs .rdi)

theorem exceptionFrame_eq
    (rsp0 : Word) (vector : Nat) (errCode : Option Word) :
    let stack := p.frameStack rsp0 errCode (ownWords vector)
    p.exceptionFrame rsp0 vector errCode = statusAt stack.mem stack.sp := by
  intro stack
  rw [exceptionFrame, exceptionCalled, isrEntry_eq, exec_entry]
  simp only [Function.update_self]
  rfl

/-- Whatever the handler of an exception returns, the stub goes on with the
frame that lies on its own stack. -/
theorem exceptionHandled_eq
    (rsp0 : Word) (vector : Nat) (errCode : Option Word) (handler : Handler) :
    let called := p.exceptionCalled rsp0 vector errCode
    let returned := handler.run called
    p.exceptionHandled rsp0 vector errCode handler =
      resume (statusAt returned.mem called.rsp) returned.mem := by
  intro called returned
  have entry : (p.interrupt rsp0 false errCode).exec handler
      (isrEntry vector) = called := by
    rw [isrEntry_eq, exec_entry]
    simp only [called, exceptionCalled, isrEntry_eq, exec_entry]
  rw [exceptionHandled, isr, List.append_assoc, exec_append, exec_restore,
    exec_append, entry, ← handler.rsp_run called]
  rfl

end Processor

/-- A stub that expects an error code takes the return address for one that is
not there. -/
theorem errCode_of_missing
    {vector : Nat}
    (listed : vector ∈ errCodeVectors)
    (rsp0 : Word) (p : Processor) :
    (p.exceptionFrame rsp0 vector none).errCode = p.rip := by
  have own : ownWords vector = [BitVec.ofNat 64 vector] := if_pos listed
  have place : 128#64 = BitVec.ofNat 64 16 * wordSize := by decide
  rw [Processor.exceptionFrame_eq, own]
  simp only [statusAt]
  rw [place, Processor.word_frameStack (by simp)
    (by simp [Processor.frameWords, savedRegs])]
  rfl

/-- A stub that expects none takes the error code for the return address. -/
theorem rip_of_unexpected
    {vector : Nat}
    (unlisted : vector ∉ errCodeVectors)
    (rsp0 errCode : Word) (p : Processor) :
    (p.exceptionFrame rsp0 vector (some errCode)).rip = errCode := by
  have own : ownWords vector = [0#64, BitVec.ofNat 64 vector] :=
    if_neg unlisted
  have place : 136#64 = BitVec.ofNat 64 17 * wordSize := by decide
  rw [Processor.exceptionFrame_eq, own]
  simp only [statusAt]
  rw [place, Processor.word_frameStack (by simp)
    (by simp [Processor.frameWords, savedRegs])]
  rfl

/-- `exception_handler` always finds the registers of the interrupted code, the
vector and the error code in its frame, exactly when the processor pushes error
codes for the vectors that have a stub `isr_err_code`, and for no others. -/
theorem exceptionFrame_iff (pushesCode : Nat → Bool) (vector : Nat) :
    (∀ rsp0 errCode p,
      Processor.exceptionFrame rsp0 vector
          (if pushesCode vector then some errCode else none) p =
        p.status (BitVec.ofNat 64 vector)
          (if pushesCode vector then errCode else 0#64)) ↔
      (pushesCode vector = true ↔ vector ∈ errCodeVectors) := by
  constructor
  · intro framed
    let p : Processor :=
      { regs := fun _ => 0#64, rip := 1#64, cs := 0#64, rflags := 0#64
        rsp := 0#64, ss := 0#64, mem := fun _ => 0#64 }
    have frame := framed 0#64 0#64 p
    by_cases listed : vector ∈ errCodeVectors
    · refine iff_of_true (by_contra fun missing => ?_) listed
      rw [if_neg missing, if_neg missing] at frame
      have wrong := congrArg CpuStatus.errCode frame
      rw [errCode_of_missing listed] at wrong
      exact absurd wrong (by decide : (1#64 : Word) ≠ 0#64)
    · refine iff_of_false (fun pushes => ?_) listed
      rw [if_pos pushes, if_pos pushes] at frame
      have wrong := congrArg CpuStatus.rip frame
      rw [rip_of_unexpected listed] at wrong
      exact absurd wrong (by decide : (0#64 : Word) ≠ 1#64)
  · intro agree rsp0 errCode p
    rw [Processor.exceptionFrame_eq]
    apply Processor.statusAt_frameStack
    unfold ownWords
    by_cases listed : vector ∈ errCodeVectors
    · simp [agree.mpr listed, listed]
    · have none : pushesCode vector = false := by
        simpa using mt agree.mp listed
      simp [none, listed]

end Interrupts
end PivotOs
