import PivotOs.Word
import PivotOs.Library.BitField
import Mathlib.Data.List.Basic

/-!
# The interrupt descriptor table

`set_idt_entry` spreads the address of a stub over three fields of a descriptor,
and the processor puts it together again when it delivers an interrupt.  The
table is written entry by entry while the kernel starts, so the gate of a vector
is that of its latest registration.
-/

namespace PivotOs
namespace Interrupts

/-- `idt_desc_t`. -/
structure IdtDesc where
  offset0 : BitVec 16
  segmentSelector : BitVec 16
  ist : BitVec 8
  flags : BitVec 8
  offset1 : BitVec 16
  offset2 : BitVec 32
  rsv : BitVec 32

namespace IdtDesc

/-- A descriptor as it lies in memory, its first field in the lowest bits. -/
def bits (desc : IdtDesc) : BitVec 128 :=
  desc.rsv ++ desc.offset2 ++ desc.offset1 ++ desc.flags ++ desc.ist ++
    desc.segmentSelector ++ desc.offset0

/-- A descriptor of zero bytes. -/
def zero : IdtDesc := ⟨0#16, 0#16, 0#8, 0#8, 0#16, 0#32, 0#32⟩

end IdtDesc

/-- The variables of `cpu/idt.c`. -/
structure Idt where
  /-- `idt`. -/
  idt : Vector IdtDesc 256
  /-- `idtr.size`. -/
  size : BitVec 16

/-- A use of `IDT_SET_INT` or `IDT_SET_TRAP`. -/
structure Registration where
  num : BitVec 16
  /-- `IDT_SET_TRAP` was used. -/
  trap : Bool
  ring : BitVec 32
  handler : Word
  deriving DecidableEq

namespace Registration

/-- The flags that the macros pass on. -/
def flags (r : Registration) : BitVec 8 :=
  ((if r.trap then 0x8F#32 else 0x8E#32) ||| r.ring <<< 5).setWidth 8

/-- The lowest privilege that may use the gate. -/
def dpl (r : Registration) : BitVec 2 := r.ring.setWidth 2

end Registration

namespace Idt

/-- `set_idt_entry`.  There is no descriptor behind the table. -/
def setIdtEntry (s : Idt) (idx : BitVec 16) (flags : BitVec 8)
    (selector : BitVec 16) (ist : BitVec 8) (handler : Word) : Option Idt :=
  if inside : idx.toNat < 256 then
    some { s with
      idt := s.idt.set idx.toNat
        { flags := flags
          segmentSelector := selector
          ist := ist
          offset0 := handler.setWidth 16
          offset1 := (handler >>> 16).setWidth 16
          offset2 := (handler >>> 32).setWidth 32
          rsv := 0#32 } inside }
  else none

/-- `IDT_SET_INT` and `IDT_SET_TRAP`. -/
def register (s : Idt) (r : Registration) : Option Idt :=
  s.setIdtEntry r.num r.flags 0x8#16 0#8 r.handler

/-- Some uses of the macros. -/
def registerAll (s : Idt) (rs : List Registration) : Option Idt :=
  rs.foldlM register s

/-- The uses of `IDT_SET_INT` in `load_exceptions`. -/
def exceptions (isr : Nat → Word) : List Registration :=
  (List.range 32).map fun vector =>
    ⟨BitVec.ofNat 16 vector, false, 0#32, isr vector⟩

/-- `init_idt`, with the addresses of the stubs. -/
def initIdt (s : Idt) (isr : Nat → Word) : Option Idt :=
  (registerAll { s with idt := Vector.replicate 256 .zero }
      (exceptions isr)).map fun loaded =>
    { loaded with size := BitVec.ofNat 16 (256 * 16 - 1) }

end Idt

/-! ## The processor -/

/-- Where an interrupt comes from. -/
inductive Origin
  /-- The instruction `int`, at a privilege level. -/
  | software (cpl : BitVec 2)
  /-- An exception or an interrupt request. -/
  | event
  deriving DecidableEq

/-- What the processor does with an interrupt. -/
inductive Delivery
  | generalProtection
  | notPresent
  /-- A stub is called through an interrupt gate or a trap gate. -/
  | stub (selector : BitVec 16) (offset : Word) (ist : BitVec 3) (trap : Bool)
  deriving DecidableEq

/-- An interrupt may use a gate of some privilege. -/
def Origin.mayUse (dpl : BitVec 2) : Origin → Bool
  | .software cpl => decide (cpl ≤ dpl)
  | .event => true

/-- What the processor does with the gate in 16 bytes. -/
def gate (origin : Origin) (desc : BitVec 128) : Delivery :=
  let kind : BitVec 5 := BitField.get 40 5 desc
  if (kind = 0xE#5 ∨ kind = 0xF#5) ∧ origin.mayUse (BitField.get 45 2 desc) then
    if (BitField.get 47 1 desc : BitVec 1) = 1#1 then
      .stub (BitField.get 16 16 desc)
        (BitField.get 64 32 desc ++ BitField.get 48 16 desc ++
          BitField.get 0 16 desc)
        (BitField.get 32 3 desc) (kind = 0xF#5)
    else .notPresent
  else .generalProtection

/-- What the processor does with a vector.  The descriptor has to lie within the
limit of the table. -/
def Idt.deliver (s : Idt) (origin : Origin) (vector : BitVec 8) : Delivery :=
  if vector.toNat * 16 + 15 ≤ s.size.toNat then
    gate origin (s.idt.get vector.toFin).bits
  else .generalProtection

/-- What a registration asks for. -/
def Registration.delivery (r : Registration) (origin : Origin) : Delivery :=
  if origin.mayUse r.dpl then .stub 0x8#16 r.handler 0#3 r.trap
  else .generalProtection

/-! ## Registrations -/

/-- The descriptor that a registration writes. -/
def Registration.desc (r : Registration) : IdtDesc where
  flags := r.flags
  segmentSelector := 0x8#16
  ist := 0#8
  offset0 := r.handler.setWidth 16
  offset1 := (r.handler >>> 16).setWidth 16
  offset2 := (r.handler >>> 32).setWidth 32
  rsv := 0#32

/-- The three parts of an address, put together again. -/
theorem offset_eq (handler : Word) :
    (handler >>> 32).setWidth 32 ++ (handler >>> 16).setWidth 16 ++
      handler.setWidth 16 = handler := by
  apply BitVec.eq_of_getLsbD_eq
  intro i inside
  rw [BitVec.getLsbD_append, BitVec.getLsbD_append]
  split
  · next low =>
      simp [low]
  · split
    · next notLow middle =>
        simp [middle, show 16 + (i - 16) = i by omega]
    · next notLow high =>
        simp [show 32 + (i - 16 - 16) = i by omega]
        omega

theorem kind_flags (r : Registration) :
    BitField.get 0 5 r.flags = if r.trap then 0xF#5 else 0xE#5 := by
  apply BitVec.eq_of_getLsbD_eq
  intro i below
  have shifted : (r.ring <<< 5).getLsbD i = false := by
    simp [below]
  have small : i < 8 := by omega
  rw [BitField.get, BitVec.getLsbD_extractLsb', Registration.flags,
    BitVec.getLsbD_setWidth, Nat.zero_add, BitVec.getLsbD_or, shifted]
  have kinds : ∀ i : Fin 5,
      (0x8F#32).getLsbD i = (0xF#5).getLsbD i ∧
        (0x8E#32).getLsbD i = (0xE#5).getLsbD i := by decide
  cases r.trap
  · simpa [below, small] using (kinds ⟨i, below⟩).2
  · simpa [below, small] using (kinds ⟨i, below⟩).1

theorem dpl_flags (r : Registration) : BitField.get 5 2 r.flags = r.dpl := by
  apply BitVec.eq_of_getLsbD_eq
  intro i below
  have clear : ∀ i : Fin 2,
      (0x8F#32).getLsbD (5 + i) = false ∧
        (0x8E#32).getLsbD (5 + i) = false := by decide
  have wide : 5 + i < 8 ∧ 5 + i < 32 := by omega
  rw [BitField.get, BitVec.getLsbD_extractLsb', Registration.flags,
    BitVec.getLsbD_setWidth, BitVec.getLsbD_or, BitVec.getLsbD_shiftLeft,
    Registration.dpl, BitVec.getLsbD_setWidth]
  cases r.trap
  · rw [if_neg Bool.false_ne_true, (clear ⟨i, below⟩).2]
    simp [below, wide]
  · rw [if_pos rfl, (clear ⟨i, below⟩).1]
    simp [below, wide]

theorem present_flags (r : Registration) : BitField.get 7 1 r.flags = 1#1 := by
  apply BitVec.eq_of_getLsbD_eq
  intro i below
  obtain rfl : i = 0 := by omega
  rw [BitField.get, BitVec.getLsbD_extractLsb', Registration.flags,
    BitVec.getLsbD_setWidth, BitVec.getLsbD_or]
  cases r.trap
  · simp
  · simp

/-- The flags are the sixth byte of a descriptor. -/
theorem get_flags
    (start width : Nat) (desc : IdtDesc)
    (inside : start + width ≤ 8) :
    BitField.get (40 + start) width desc.bits =
      BitField.get start width desc.flags := by
  rw [IdtDesc.bits, BitField.get_append_high _ _ (by omega),
    BitField.get_append_high _ _ (by omega),
    BitField.get_append_high _ _ (by omega),
    BitField.get_append_low _ _ (by omega)]
  congr 1
  omega

theorem get_ist (desc : IdtDesc) :
    BitField.get 32 3 desc.bits = BitField.get 0 3 desc.ist := by
  rw [IdtDesc.bits, BitField.get_append_high _ _ (by omega),
    BitField.get_append_high _ _ (by omega),
    BitField.get_append_low _ _ (by omega)]

theorem get_segmentSelector (desc : IdtDesc) :
    BitField.get 16 16 desc.bits = desc.segmentSelector := by
  rw [IdtDesc.bits, BitField.get_append_high _ _ (by omega),
    BitField.get_append_low _ _ (by omega)]
  exact BitField.get_all

theorem get_offset0 (desc : IdtDesc) :
    BitField.get 0 16 desc.bits = desc.offset0 := by
  rw [IdtDesc.bits, BitField.get_append_low _ _ (by omega)]
  exact BitField.get_all

theorem get_offset1 (desc : IdtDesc) :
    BitField.get 48 16 desc.bits = desc.offset1 := by
  rw [IdtDesc.bits, BitField.get_append_high _ _ (by omega),
    BitField.get_append_high _ _ (by omega),
    BitField.get_append_high _ _ (by omega),
    BitField.get_append_high _ _ (by omega),
    BitField.get_append_low _ _ (by omega)]
  exact BitField.get_all

theorem get_offset2 (desc : IdtDesc) :
    BitField.get 64 32 desc.bits = desc.offset2 := by
  rw [IdtDesc.bits, BitField.get_append_high _ _ (by omega),
    BitField.get_append_high _ _ (by omega),
    BitField.get_append_high _ _ (by omega),
    BitField.get_append_high _ _ (by omega),
    BitField.get_append_high _ _ (by omega),
    BitField.get_append_low _ _ (by omega)]
  exact BitField.get_all

/-- The processor finds in a descriptor what was registered. -/
theorem gate_desc (r : Registration) (origin : Origin) :
    gate origin r.desc.bits = r.delivery origin := by
  have kind : BitField.get 40 5 r.desc.bits =
      if r.trap then 0xF#5 else 0xE#5 :=
    (get_flags 0 5 r.desc (by omega)).trans (kind_flags r)
  have dpl : BitField.get 45 2 r.desc.bits = r.dpl :=
    (get_flags 5 2 r.desc (by omega)).trans (dpl_flags r)
  have present : BitField.get 47 1 r.desc.bits = 1#1 :=
    (get_flags 7 1 r.desc (by omega)).trans (present_flags r)
  have offset : BitField.get 64 32 r.desc.bits ++
      BitField.get 48 16 r.desc.bits ++ BitField.get 0 16 r.desc.bits =
        r.handler := by
    rw [get_offset2, get_offset1, get_offset0]
    exact offset_eq r.handler
  rw [gate, kind, dpl, present, offset, get_ist, get_segmentSelector,
    Registration.delivery]
  cases r.trap
  · simp [Registration.desc, BitField.get]
  · simp [Registration.desc, BitField.get]

/-- There is no gate in zero bytes. -/
theorem gate_zero (origin : Origin) :
    gate origin IdtDesc.zero.bits = .generalProtection := by
  rfl

namespace Idt

/-- The latest registration of a vector. -/
def latest (vector : BitVec 8) (rs : List Registration) : Option Registration :=
  (rs.filter fun r => r.num.toNat = vector.toNat).getLast?

/-- There is a descriptor for each registration. -/
def InTable (rs : List Registration) : Prop := ∀ r ∈ rs, r.num.toNat < 256

instance (rs : List Registration) : Decidable (InTable rs) :=
  inferInstanceAs (Decidable (∀ _ ∈ _, _))

theorem latest_cons (vector : BitVec 8) (r : Registration) (rs : List Registration) :
    latest vector (r :: rs) =
      (latest vector rs).or
        (if r.num.toNat = vector.toNat then some r else none) := by
  rw [latest, latest, List.filter_cons]
  split
  · next same =>
      rw [if_pos (of_decide_eq_true same), List.getLast?_cons]
      cases (rs.filter fun r => r.num.toNat = vector.toNat).getLast? <;> rfl
  · next other =>
      rw [if_neg (fun same => other (decide_eq_true same)), Option.or_none]

/-- One registration writes its descriptor and no other. -/
theorem register_eq (s : Idt) (r : Registration) :
    s.register r =
      if inside : r.num.toNat < 256 then
        some { s with idt := s.idt.set r.num.toNat r.desc inside }
      else none := rfl

/-- After some registrations, a vector has the descriptor of the latest one. -/
theorem registerAll_eq
    {s last : Idt} {rs : List Registration}
    (run : s.registerAll rs = some last) :
    last.size = s.size ∧
      ∀ vector : BitVec 8, last.idt.get vector.toFin =
        ((latest vector rs).map Registration.desc).getD
          (s.idt.get vector.toFin) := by
  induction rs generalizing s with
  | nil =>
      cases run
      exact ⟨rfl, fun _ => rfl⟩
  | cons r rest inductionHypothesis =>
      rw [registerAll, List.foldlM_cons, register_eq] at run
      split at run
      · next inside =>
          obtain ⟨size, entries⟩ := inductionHypothesis run
          refine ⟨size, fun vector => ?_⟩
          rw [entries, latest_cons]
          cases later : latest vector rest with
          | some other => rfl
          | none =>
              have written :
                  (s.idt.set r.num.toNat r.desc inside)[vector.toNat] = _ :=
                Vector.getElem_set inside vector.isLt
              by_cases same : r.num.toNat = vector.toNat
              · rw [if_pos same]
                exact written.trans (if_pos same)
              · rw [if_neg same]
                exact written.trans (if_neg same)
      · cases run

/-- Registrations fail exactly where there is no descriptor. -/
theorem registerAll_isSome (s : Idt) (rs : List Registration) :
    (s.registerAll rs).isSome ↔ InTable rs := by
  induction rs generalizing s with
  | nil => simp [registerAll, InTable]
  | cons r rest inductionHypothesis =>
      rw [registerAll, List.foldlM_cons, register_eq, InTable,
        List.forall_mem_cons]
      split
      · next inside =>
          exact (inductionHypothesis _).trans (iff_and_self.mpr fun _ => inside)
      · next outside =>
          exact iff_of_false Bool.false_ne_true fun both => outside both.1

theorem inTable_exceptions (isr : Nat → Word) : InTable (exceptions isr) := by
  intro r member
  obtain ⟨vector, below, rfl⟩ := List.mem_map.mp member
  have small := List.mem_range.mp below
  change vector % 2 ^ 16 < 256
  omega

theorem latest_append (vector : BitVec 8) (first second : List Registration) :
    latest vector (first ++ second) =
      (latest vector second).or (latest vector first) := by
  rw [latest, List.filter_append, List.getLast?_append]
  rfl

/-- The kernel from `init_idt` on. -/
def start (s : Idt) (isr : Nat → Word) (rs : List Registration) : Option Idt :=
  (s.initIdt isr).bind fun loaded => loaded.registerAll rs

theorem initIdt_eq (s : Idt) (isr : Nat → Word) :
    ∃ loaded, s.initIdt isr = some loaded ∧
      loaded.size = BitVec.ofNat 16 (256 * 16 - 1) ∧
      ∀ vector : BitVec 8, loaded.idt.get vector.toFin =
        ((latest vector (exceptions isr)).map Registration.desc).getD .zero := by
  obtain ⟨loaded, load⟩ := Option.isSome_iff_exists.mp
    ((registerAll_isSome { s with idt := Vector.replicate 256 .zero } _).mpr
      (inTable_exceptions isr))
  obtain ⟨-, entries⟩ := registerAll_eq load
  refine ⟨{ loaded with size := BitVec.ofNat 16 (256 * 16 - 1) }, ?_, rfl,
    fun vector => ?_⟩
  · rw [initIdt, load, Option.map_some]
  · have empty : (Vector.replicate 256 IdtDesc.zero).get vector.toFin =
        .zero := Vector.getElem_replicate _
    exact (entries vector).trans (by rw [empty])

theorem start_isSome (s : Idt) (isr : Nat → Word) (rs : List Registration) :
    (s.start isr rs).isSome ↔ InTable rs := by
  obtain ⟨loaded, init, -⟩ := initIdt_eq s isr
  rw [start, init, Option.bind_some, registerAll_isSome]

/-- An interrupt is delivered as the latest registration of its vector asks
for. -/
theorem deliver_of_start
    {s last : Idt} {isr : Nat → Word} {rs : List Registration}
    (run : s.start isr rs = some last)
    (origin : Origin) (vector : BitVec 8) :
    last.deliver origin vector =
      ((latest vector (exceptions isr ++ rs)).map
        fun r => r.delivery origin).getD .generalProtection := by
  obtain ⟨loaded, init, limited, exceptionEntries⟩ := initIdt_eq s isr
  rw [start, init, Option.bind_some] at run
  obtain ⟨size, entries⟩ := registerAll_eq run
  have limit : vector.toNat * 16 + 15 ≤ last.size.toNat := by
    have below := vector.isLt
    rw [size, limited]
    change vector.toNat * 16 + 15 ≤ 4095
    omega
  rw [deliver, if_pos limit, entries, latest_append]
  cases latest vector rs with
  | some r => exact gate_desc r origin
  | none =>
      rw [Option.none_or, Option.map_none, Option.getD_none, exceptionEntries]
      cases latest vector (exceptions isr) with
      | some r => exact gate_desc r origin
      | none => exact gate_zero origin

/-- After any uses of the macros behind `init_idt`, every interrupt is delivered
as the latest registration of its vector asks for, at the address that it was
given, and a vector without one is not delivered.  Registering a vector behind
the table goes wrong. -/
theorem deliver_start (s : Idt) (isr : Nat → Word) (rs : List Registration) :
    (s.start isr rs).map Idt.deliver =
      if InTable rs then
        some fun origin vector =>
          ((latest vector (exceptions isr ++ rs)).map
            fun r => r.delivery origin).getD .generalProtection
      else none := by
  split
  · next inside =>
      obtain ⟨last, run⟩ :=
        Option.isSome_iff_exists.mp ((start_isSome s isr rs).mpr inside)
      rw [run, Option.map_some]
      congr 1
      funext origin vector
      exact deliver_of_start run origin vector
  · next outside =>
      rw [← start_isSome s isr, Bool.not_eq_true, Option.isSome_eq_false_iff,
        Option.isNone_iff_eq_none] at outside
      rw [outside, Option.map_none]

end Idt

/-! ## The gates of the kernel -/

/-- The addresses of the stubs. -/
structure Stubs where
  isr : Nat → Word
  syscallIrq : Word
  ipiIrq : Word
  apicPeriodicIrq : Word
  apicOneshotIrq : Word
  pitIrq : Word
  spuriousIrq : Word
  rtcIrq : Word
  keyboardIrq : Word

/-- The uses of `IDT_SET_INT` and `IDT_SET_TRAP` behind `init_idt`. -/
inductive KernelGate
  | syscall | ipi | apicPeriodic | apicOneshot | pit | spurious | rtc | keyboard
  deriving DecidableEq

/-- The arguments of each use. -/
def KernelGate.registration (stubs : Stubs) : KernelGate → Registration
  | .syscall => ⟨0x80#16, true, 3#32, stubs.syscallIrq⟩
  | .ipi => ⟨0x81#16, false, 0#32, stubs.ipiIrq⟩
  | .apicPeriodic => ⟨32#16, false, 3#32, stubs.apicPeriodicIrq⟩
  | .apicOneshot => ⟨33#16, false, 0#32, stubs.apicOneshotIrq⟩
  | .pit => ⟨34#16, false, 0#32, stubs.pitIrq⟩
  | .spurious => ⟨255#16, false, 0#32, stubs.spuriousIrq⟩
  | .rtc => ⟨35#16, false, 0#32, stubs.rtcIrq⟩
  | .keyboard => ⟨36#16, false, 0#32, stubs.keyboardIrq⟩

namespace Idt

theorem mem_of_latest
    {vector : BitVec 8} {rs : List Registration} {r : Registration}
    (found : latest vector rs = some r) :
    r ∈ rs ∧ r.num.toNat = vector.toNat := by
  obtain ⟨member, same⟩ := List.mem_filter.mp (List.mem_of_getLast? found)
  exact ⟨member, of_decide_eq_true same⟩

theorem ne_of_latest
    {vector : BitVec 8} {rs : List Registration} {r : Registration}
    (missing : latest vector rs = none)
    (member : r ∈ rs) :
    r.num.toNat ≠ vector.toNat := by
  intro same
  have empty := List.getLast?_eq_none_iff.mp missing
  exact List.ne_nil_of_mem
    (List.mem_filter.mpr ⟨member, decide_eq_true same⟩) empty

theorem inTable_kernelGates (stubs : Stubs) (gates : List KernelGate) :
    InTable (gates.map (KernelGate.registration stubs)) := by
  intro r member
  obtain ⟨gate, -, rfl⟩ := List.mem_map.mp member
  cases gate <;> exact of_decide_eq_true rfl

/-- The gates that user code may use, by their vectors. -/
def userGate (stubs : Stubs) (gates : List KernelGate) (vector : BitVec 8) :
    Delivery :=
  if vector = 0x80#8 ∧ .syscall ∈ gates then
    .stub 0x8#16 stubs.syscallIrq 0#3 true
  else if vector = 32#8 ∧ .apicPeriodic ∈ gates then
    .stub 0x8#16 stubs.apicPeriodicIrq 0#3 false
  else .generalProtection

/-- A vector without a gate has none for user code. -/
theorem userGate_of_latest
    {stubs : Stubs} {gates : List KernelGate} {vector : BitVec 8}
    (missing : latest vector
      (exceptions stubs.isr ++ gates.map (KernelGate.registration stubs)) =
        none) :
    userGate stubs gates vector = .generalProtection := by
  have absent : ∀ gate ∈ gates,
      (gate.registration stubs).num.toNat ≠ vector.toNat := fun gate member =>
    ne_of_latest missing
      (List.mem_append_right _ (List.mem_map_of_mem member))
  rw [userGate, if_neg, if_neg]
  · rintro ⟨rfl, member⟩
    exact absent _ member rfl
  · rintro ⟨rfl, member⟩
    exact absent _ member rfl

/-- A gate that was registered, as user code finds it. -/
theorem userGate_of_registration
    {stubs : Stubs} {gates : List KernelGate} {vector : BitVec 8}
    {gate : KernelGate}
    (member : gate ∈ gates)
    (same : (gate.registration stubs).num.toNat = vector.toNat) :
    (gate.registration stubs).delivery (.software 3#2) =
      userGate stubs gates vector := by
  have is : vector = BitVec.ofNat 8 (gate.registration stubs).num.toNat := by
    rw [same, BitVec.ofNat_toNat, BitVec.setWidth_eq]
  subst is
  cases gate with
  | syscall => exact (if_pos ⟨rfl, member⟩).symm
  | apicPeriodic =>
      have other : BitVec.ofNat 8 32 ≠ 0x80#8 := by decide
      rw [userGate, if_neg fun both => other both.1]
      exact (if_pos ⟨rfl, member⟩).symm
  | _ => rfl

/-- In whichever order the kernel sets up its gates, and how often, the
instruction `int` of user code enters it at the stub of system calls and at that
of the timer, and nowhere else. -/
theorem deliver_user
    (s : Idt) (stubs : Stubs) (gates : List KernelGate) :
    (s.start stubs.isr (gates.map (KernelGate.registration stubs))).map
        (fun last => last.deliver (.software 3#2)) =
      some (userGate stubs gates) := by
  obtain ⟨last, run⟩ := Option.isSome_iff_exists.mp
    ((start_isSome s stubs.isr _).mpr (inTable_kernelGates stubs gates))
  rw [run, Option.map_some]
  congr 1
  funext vector
  rw [deliver_of_start run]
  cases found : latest vector
      (exceptions stubs.isr ++ gates.map (KernelGate.registration stubs)) with
  | none => exact (userGate_of_latest found).symm
  | some r =>
      obtain ⟨member, same⟩ := mem_of_latest found
      rcases List.mem_append.mp member with exception | registered
      · obtain ⟨number, below, rfl⟩ := List.mem_map.mp exception
        have small := List.mem_range.mp below
        have is : vector.toNat = number :=
          same.symm.trans (Nat.mod_eq_of_lt (by omega))
        rw [userGate, if_neg, if_neg]
        · rfl
        · rintro ⟨rfl, -⟩
          change 32 = number at is
          omega
        · rintro ⟨rfl, -⟩
          change 128 = number at is
          omega
      · obtain ⟨gate, among, rfl⟩ := List.mem_map.mp registered
        exact userGate_of_registration among same

end Idt
end Interrupts
end PivotOs
