import PivotOs.Word
import PivotOs.Library.BitField
import Mathlib.Logic.Function.Basic

/-!
# Task state segments

Each processor gets a task state segment on the heap.  `init_tss` spreads its
address over two descriptors at the end of the global descriptor table, and
`set_rsp0` gathers it again from the descriptors that the task register selects.
The lower half of the address is gathered in a signed integer of 32 bits, which
is extended by its sign.
-/

namespace PivotOs

/-- `MAX_GDT_ENTRIES`. -/
def maxGdtEntries : Nat := 37

/-- `gdt_desc_t`. -/
abbrev GdtDesc := Word

namespace GdtDesc

/-- A descriptor by its fields. -/
def ofFields (limit0 base0 : BitVec 16) (base1 accessByte flags base2 : BitVec 8) :
    GdtDesc :=
  base2 ++ flags ++ accessByte ++ base1 ++ base0 ++ limit0

/-- `fields.base0`. -/
def base0 (desc : GdtDesc) : BitVec 16 := BitField.get 16 16 desc

/-- `fields.base1`. -/
def base1 (desc : GdtDesc) : BitVec 8 := BitField.get 32 8 desc

/-- `fields.base2`. -/
def base2 (desc : GdtDesc) : BitVec 8 := BitField.get 56 8 desc

/-- The processor marks the segment that it loads as busy, in the type of the
access byte. -/
def busy (desc : GdtDesc) : GdtDesc := BitField.set 41 1#1 desc

end GdtDesc

/-- The variables of `cpu/gdt.c`. -/
structure Gdt where
  /-- `gdt`, of `MAX_GDT_ENTRIES` descriptors. -/
  gdt : Nat → GdtDesc
  /-- `gdt_entries`. -/
  gdtEntries : Nat
  /-- `gdtr.size`. -/
  gdtrSize : Nat

namespace Gdt

/-- The table that the kernel is built with. -/
def static : Gdt where
  gdt
    | 1 => .ofFields 0xFFFF#16 0#16 0#8 0b10011011#8 (0xF#8 ||| 0b00100000#8) 0#8
    | 2 => .ofFields 0xFFFF#16 0#16 0#8 0b10010011#8 0xF#8 0#8
    | 3 => .ofFields 0xFFFF#16 0#16 0#8 0b11111011#8 (0xF#8 ||| 0b00100000#8) 0#8
    | 4 => .ofFields 0xFFFF#16 0#16 0#8 0b11110011#8 0xF#8 0#8
    | _ => 0#64
  gdtEntries := 5
  gdtrSize := 0

/-- `init_gdt`. -/
def initGdt (s : Gdt) : Gdt :=
  { s with gdtrSize := (s.gdtEntries * 8 - 1) % 2 ^ 16 }

/-- `set_gdt_desc`.  There is no descriptor behind the table. -/
def setGdtDesc (s : Gdt) (idx : Nat) (entry : Word) : Option Gdt :=
  if idx < maxGdtEntries then
    let written := { s with gdt := Function.update s.gdt idx entry }
    some (
      if s.gdtEntries ≤ idx then
        { written with
          gdtEntries := idx + 1
          gdtrSize := ((idx + 1) * 8 - 1) % 2 ^ 16 }
      else written)
  else none

/-- `sizeof(tss_t)`. -/
def sizeofTss : BitVec 16 := 104#16

/-- The first descriptor of a segment. -/
def lowerDesc (kernelTssAddr : Word) : GdtDesc :=
  sizeofTss.setWidth 64 |||
    (kernelTssAddr &&& 0xFFFF#64) <<< 16 |||
    ((kernelTssAddr >>> 16) &&& 0xFF#64) <<< 32 |||
    0b10001001#64 <<< 40 |||
    ((kernelTssAddr >>> 24) &&& 0xFF#64) <<< 56

/-- The second descriptor of a segment. -/
def upperDesc (kernelTssAddr : Word) : GdtDesc :=
  (kernelTssAddr >>> 32) &&& 0xFFFFFFFF#64

/-- The instruction `ltr`. -/
def ltr (s : Gdt) (tr : Nat) : Gdt :=
  { s with gdt := Function.update s.gdt (tr / 8) (s.gdt (tr / 8)).busy }

/-- `init_tss`, with the address that `halloc` returns.  The result has the value
of the task register. -/
def initTss (s : Gdt) (kernelTssAddr : Word) : Option (Gdt × Nat) :=
  let tssReg := s.gdtEntries * 8 % 2 ^ 16
  (s.setGdtDesc s.gdtEntries (lowerDesc kernelTssAddr)).bind fun lower =>
    (lower.setGdtDesc lower.gdtEntries (upperDesc kernelTssAddr)).map
      fun upper => (upper.ltr tssReg, tssReg)

/-- `init_tss` on one processor after another, with the values of their task
registers. -/
def initTsses (s : Gdt) : List Word → Option (Gdt × List Nat)
  | [] => some (s, [])
  | kernelTssAddr :: rest =>
      (s.initTss kernelTssAddr).bind fun (next, tssReg) =>
        (next.initTsses rest).map fun (last, tssRegs) =>
          (last, tssReg :: tssRegs)

/-- The pointer that `set_rsp0` gathers from two descriptors.  The fields are
promoted to `int`. -/
def gather (entry0 entry1 : GdtDesc) : Word :=
  let lower : BitVec 32 := entry0.base0.setWidth 32 |||
    entry0.base1.setWidth 32 <<< 16 ||| entry0.base2.setWidth 32 <<< 24
  lower.signExtend 64 ||| (entry1 &&& 0xFFFFFFFF#64) <<< 32

/-- The segment whose `rsp0` is set by `set_rsp0`, by the value of the task
register. -/
def tss (s : Gdt) (tr : Nat) : Word := gather (s.gdt (tr / 8)) (s.gdt (tr / 8 + 1))

/-! ## Spreading and gathering an address -/

/-- Some bits of an address, put in another place. -/
theorem getLsbD_place
    {i : Nat} (address : Word) (from_ width start : Nat)
    (inside : i < 64) :
    (((address >>> from_) &&& (BitVec.allOnes width).setWidth 64) <<<
        start).getLsbD i =
      (decide (start ≤ i) && decide (i - start < width) &&
        address.getLsbD (from_ + (i - start))) := by
  have near : i - start < 64 := by omega
  rw [BitVec.getLsbD_shiftLeft, BitVec.getLsbD_and, BitVec.getLsbD_ushiftRight,
    BitVec.getLsbD_setWidth, BitVec.getLsbD_allOnes]
  by_cases before : i < start
  · simp [before, Nat.not_le.mpr before]
  · simp [before, inside, near, Nat.not_lt.mp before, Bool.and_comm]

theorem lowerDesc_eq (address : Word) :
    lowerDesc address = sizeofTss.setWidth 64 |||
      ((address >>> 0) &&& (BitVec.allOnes 16).setWidth 64) <<< 16 |||
      ((address >>> 16) &&& (BitVec.allOnes 8).setWidth 64) <<< 32 |||
      0b10001001#64 <<< 40 |||
      ((address >>> 24) &&& (BitVec.allOnes 8).setWidth 64) <<< 56 := by
  rw [BitVec.ushiftRight_zero]
  rfl

/-- The bits of the first descriptor that hold bits of the address. -/
theorem getLsbD_lowerDesc
    {i : Nat} (address : Word)
    (inside : i < 64)
    (field : 16 ≤ i ∧ i < 40 ∨ 56 ≤ i) :
    (lowerDesc address).getLsbD i =
      address.getLsbD (if i < 40 then i - 16 else i - 32) := by
  have size : (sizeofTss.setWidth 64).getLsbD i = false := by
    rw [BitVec.getLsbD_setWidth, BitVec.getLsbD_of_ge sizeofTss _ (by omega),
      Bool.and_false]
  have access : (0b10001001#64 <<< 40).getLsbD i = false := by
    have clear : ∀ i : Fin 64, (16 ≤ i.val ∧ i.val < 40 ∨ 56 ≤ i.val) →
        (0b10001001#64 <<< 40).getLsbD i = false := by decide
    exact clear ⟨i, inside⟩ field
  rw [lowerDesc_eq, BitVec.getLsbD_or, BitVec.getLsbD_or, BitVec.getLsbD_or,
    BitVec.getLsbD_or, getLsbD_place _ _ _ _ inside,
    getLsbD_place _ _ _ _ inside, getLsbD_place _ _ _ _ inside, size, access]
  rcases Nat.lt_or_ge i 32 with low | notLow
  · have narrow : 16 ≤ i ∧ i - 16 < 16 := by omega
    have others : ¬ 32 ≤ i ∧ ¬ 56 ≤ i ∧ i < 40 := by omega
    simp [narrow, others]
  · rcases Nat.lt_or_ge i 40 with middle | high
    · have narrow : i - 32 < 8 := by omega
      have others : ¬ i - 16 < 16 ∧ ¬ 56 ≤ i := by omega
      have position : 16 + (i - 32) = i - 16 := by omega
      simp [notLow, narrow, others, middle, position]
    · have narrow : 56 ≤ i ∧ i - 56 < 8 := by omega
      have others : ¬ i - 16 < 16 ∧ ¬ i - 32 < 8 ∧ ¬ i < 40 := by omega
      have position : 24 + (i - 56) = i - 32 := by omega
      simp [narrow, others, position]

/-- The fields of a descriptor, put together as `set_rsp0` does, are the lower
half of the address. -/
theorem gather_lower (address : Word) :
    (lowerDesc address).base0.setWidth 32 |||
        (lowerDesc address).base1.setWidth 32 <<< 16 |||
        (lowerDesc address).base2.setWidth 32 <<< 24 =
      address.setWidth 32 := by
  apply BitVec.eq_of_getLsbD_eq
  intro i below
  simp only [GdtDesc.base0, GdtDesc.base1, GdtDesc.base2, BitField.get,
    BitVec.getLsbD_or, BitVec.getLsbD_shiftLeft, BitVec.getLsbD_setWidth,
    BitVec.getLsbD_extractLsb']
  rcases Nat.lt_or_ge i 16 with low | notLow
  · have others : i < 24 := by omega
    rw [getLsbD_lowerDesc address (by omega) (by omega), if_pos (by omega)]
    simp [low, others, below]
  · rcases Nat.lt_or_ge i 24 with middle | high
    · have bits : 32 + (i - 16) - 16 = i := by omega
      have narrow : i - 16 < 8 ∧ i - 16 < 32 := by omega
      have others : ¬ i < 16 := by omega
      rw [getLsbD_lowerDesc address (i := 32 + (i - 16)) (by omega) (by omega),
        if_pos (by omega), bits]
      simp [others, below, middle, narrow]
    · have bits : 56 + (i - 24) - 32 = i := by omega
      have narrow : i - 24 < 8 ∧ i - 24 < 32 := by omega
      have others : ¬ i < 16 ∧ ¬ i - 16 < 8 ∧ ¬ i < 24 := by omega
      rw [getLsbD_lowerDesc address (i := 56 + (i - 24)) (by omega) (by omega),
        if_neg (by omega), bits]
      simp [others, below, narrow]

/-- Loading the task register does not touch the address. -/
theorem gather_busy (entry0 entry1 : GdtDesc) :
    gather entry0.busy entry1 = gather entry0 entry1 := by
  have base0 : entry0.busy.base0 = entry0.base0 :=
    BitField.get_set_other _ (by decide) (by decide)
  have base1 : entry0.busy.base1 = entry0.base1 :=
    BitField.get_set_other _ (by decide) (by decide)
  have base2 : entry0.busy.base2 = entry0.base2 :=
    BitField.get_set_other _ (by decide) (by decide)
  rw [gather, base0, base1, base2, gather]

theorem getLsbD_upperDesc
    {i : Nat} (address : Word)
    (below : i < 32) :
    ((upperDesc address) &&& 0xFFFFFFFF#64).getLsbD i =
      address.getLsbD (32 + i) := by
  have mask : (0xFFFFFFFF#64).getLsbD i = true := by
    have all : ∀ i : Fin 32, (0xFFFFFFFF#64).getLsbD i = true := by decide
    exact all ⟨i, below⟩
  rw [BitVec.getLsbD_and, upperDesc, BitVec.getLsbD_and, mask, Bool.and_true,
    Bool.and_true, BitVec.getLsbD_ushiftRight]

/-- Bit 31 of the address spreads over its upper half. -/
theorem getLsbD_gather
    {i : Nat} (address : Word)
    (inside : i < 64) :
    (gather (lowerDesc address) (upperDesc address)).getLsbD i =
      if i < 32 then address.getLsbD i
      else address.getLsbD 31 || address.getLsbD i := by
  simp only [gather]
  rw [gather_lower, BitVec.getLsbD_or, BitVec.getLsbD_signExtend,
    BitVec.getLsbD_shiftLeft, BitVec.msb_eq_getLsbD_last,
    BitVec.getLsbD_setWidth, BitVec.getLsbD_setWidth]
  rcases Nat.lt_or_ge i 32 with low | high
  · simp [low, inside]
  · rw [getLsbD_upperDesc address (by omega), if_neg (by omega),
      if_neg (by omega), show 32 + (i - 32) = i by omega]
    simp [inside, Nat.not_lt.mpr high]

/-- `set_rsp0` gets back what `init_tss` has put down. -/
def Gathered (address : Word) : Prop :=
  address.getLsbD 31 = false ∨ address >>> 32 = 0xFFFFFFFF#64

instance (address : Word) : Decidable (Gathered address) :=
  inferInstanceAs (Decidable (_ ∨ _))

theorem getLsbD_ones
    {i : Nat} {address : Word}
    (ones : address >>> 32 = 0xFFFFFFFF#64)
    (high : 32 ≤ i)
    (inside : i < 64) :
    address.getLsbD i = true := by
  have all : ∀ i : Fin 32, (0xFFFFFFFF#64).getLsbD i = true := by decide
  have bit := all ⟨i - 32, by omega⟩
  rw [← ones, BitVec.getLsbD_ushiftRight] at bit
  rwa [show 32 + (i - 32) = i by omega] at bit

theorem gather_eq_iff (address : Word) :
    gather (lowerDesc address) (upperDesc address) = address ↔
      Gathered address := by
  constructor
  · intro same
    by_cases clear : address.getLsbD 31 = false
    · exact .inl clear
    · rw [Bool.not_eq_false] at clear
      refine .inr (BitVec.eq_of_getLsbD_eq fun i inside => ?_)
      rw [BitVec.getLsbD_ushiftRight]
      have mask : ∀ i : Fin 64,
          (0xFFFFFFFF#64).getLsbD i = decide (i.val < 32) := by decide
      rw [mask ⟨i, inside⟩]
      rcases Nat.lt_or_ge i 32 with low | high
      · have bit := getLsbD_gather address (show 32 + i < 64 by omega)
        rw [same, if_neg (by omega), clear, Bool.true_or] at bit
        rw [bit, decide_eq_true low]
      · rw [BitVec.getLsbD_of_ge _ _ (by omega),
          decide_eq_false (Nat.not_lt.mpr high)]
  · intro gathered
    apply BitVec.eq_of_getLsbD_eq
    intro i inside
    rw [getLsbD_gather address inside]
    split
    · rfl
    · rename_i high
      rcases gathered with clear | ones
      · rw [clear, Bool.false_or]
      · rw [getLsbD_ones ones (by omega) inside, Bool.or_true]

/-! ## The descriptors of several segments -/

variable {s next last : Gdt} {address : Word} {addresses : List Word}

/-- What `init_tss` does to a table with room for two descriptors. -/
theorem initTss_eq (s : Gdt) (address : Word)
    (room : s.gdtEntries + 2 ≤ maxGdtEntries) :
    s.initTss address = some ({
      gdt := Function.update
        (Function.update s.gdt s.gdtEntries (lowerDesc address).busy)
        (s.gdtEntries + 1) (upperDesc address)
      gdtEntries := s.gdtEntries + 2
      gdtrSize := ((s.gdtEntries + 2) * 8 - 1) % 2 ^ 16 },
      s.gdtEntries * 8) := by
  have first : s.gdtEntries < maxGdtEntries := by omega
  have second : s.gdtEntries + 1 < maxGdtEntries := by omega
  have narrow : s.gdtEntries * 8 % 2 ^ 16 = s.gdtEntries * 8 := by
    rw [maxGdtEntries] at room
    omega
  have selected : s.gdtEntries * 8 / 8 = s.gdtEntries := by omega
  have apart : s.gdtEntries ≠ s.gdtEntries + 1 := by omega
  simp only [initTss, setGdtDesc, if_pos first, le_refl, if_true,
    Option.bind_some, if_pos second, Option.map_some, narrow, ltr, selected]
  rw [Function.update_of_ne apart, Function.update_self,
    Function.update_comm apart, Function.update_idem,
    Function.update_comm apart.symm]

/-- What a run of `init_tss` leaves in the table. -/
structure Filled (s : Gdt) (addresses : List Word) (last : Gdt)
    (tssRegs : List Nat) : Prop where
  entries : last.gdtEntries = s.gdtEntries + 2 * addresses.length
  /-- The descriptors that were there before. -/
  kept : ∀ i, i < s.gdtEntries → last.gdt i = s.gdt i
  selected : ∀ k, k < addresses.length →
    tssRegs[k]? = some ((s.gdtEntries + 2 * k) * 8)
  lower : ∀ k (below : k < addresses.length),
    last.gdt (s.gdtEntries + 2 * k) = (lowerDesc addresses[k]).busy
  upper : ∀ k (below : k < addresses.length),
    last.gdt (s.gdtEntries + 2 * k + 1) = upperDesc addresses[k]

theorem Filled.cons
    {tssRegs : List Nat}
    (room : s.gdtEntries + 2 ≤ maxGdtEntries)
    (step : s.initTss address = some (next, s.gdtEntries * 8))
    (rest : Filled next addresses last tssRegs) :
    Filled s (address :: addresses) last (s.gdtEntries * 8 :: tssRegs) := by
  rw [initTss_eq s address room] at step
  cases step
  have entries := rest.entries
  have kept := rest.kept
  have selected := rest.selected
  have lower := rest.lower
  have upper := rest.upper
  simp only at entries kept selected lower upper
  refine ⟨?_, ?_, ?_, ?_, ?_⟩
  · rw [entries, List.length_cons]
    omega
  · intro i before
    rw [kept i (by omega), Function.update_of_ne (by omega),
      Function.update_of_ne (by omega)]
  · rintro (_ | k) below
    · rfl
    · rw [List.getElem?_cons_succ, selected k (by simpa using below)]
      congr 1
      omega
  · rintro (_ | k) below
    · rw [Nat.mul_zero, Nat.add_zero, kept _ (by omega),
        Function.update_of_ne (by omega), Function.update_self]
      rfl
    · have found := lower k (by simpa using below)
      rw [show s.gdtEntries + 2 * (k + 1) = s.gdtEntries + 2 + 2 * k by omega,
        found]
      rfl
  · rintro (_ | k) below
    · rw [Nat.mul_zero, Nat.add_zero, kept _ (by omega), Function.update_self]
      rfl
    · have found := upper k (by simpa using below)
      rw [show s.gdtEntries + 2 * (k + 1) + 1 = s.gdtEntries + 2 + 2 * k + 1
        by omega, found]
      rfl

/-- A table with room for them takes the descriptors of every processor. -/
theorem initTsses_spec
    (addresses : List Word) (s : Gdt)
    (room : s.gdtEntries + 2 * addresses.length ≤ maxGdtEntries) :
    ∃ last tssRegs, s.initTsses addresses = some (last, tssRegs) ∧
      Filled s addresses last tssRegs := by
  induction addresses generalizing s with
  | nil =>
      refine ⟨s, [], rfl, rfl, fun _ _ => rfl, ?_, ?_, ?_⟩
      all_goals
        intro k below
        cases below
  | cons address addresses inductionHypothesis =>
      rw [List.length_cons] at room
      have roomHere : s.gdtEntries + 2 ≤ maxGdtEntries := by omega
      obtain ⟨next, step, entries⟩ : ∃ next,
          s.initTss address = some (next, s.gdtEntries * 8) ∧
            next.gdtEntries = s.gdtEntries + 2 :=
        ⟨_, initTss_eq s address roomHere, rfl⟩
      obtain ⟨last, tssRegs, run, filled⟩ :=
        inductionHypothesis next (by omega)
      refine ⟨last, s.gdtEntries * 8 :: tssRegs, ?_,
        Filled.cons roomHere step filled⟩
      rw [initTsses, step, Option.bind_some]
      simp only [run, Option.map_some]

theorem initTsses_append (s : Gdt) (before after : List Word) :
    s.initTsses (before ++ after) =
      (s.initTsses before).bind fun (middle, first) =>
        (middle.initTsses after).map fun (last, second) =>
          (last, first ++ second) := by
  induction before generalizing s with
  | nil =>
      simp only [List.nil_append, initTsses, Option.bind_some]
      cases s.initTsses after <;> rfl
  | cons address before inductionHypothesis =>
      simp only [List.cons_append, initTsses]
      cases s.initTss address with
      | none => rfl
      | some result =>
          simp only [Option.bind_some, inductionHypothesis]
          cases result.1.initTsses before with
          | none => rfl
          | some middle =>
              simp only [Option.bind_some, Option.map_some]
              cases middle.1.initTsses after <;> rfl

/-- Every processor finds its segment, and no call touches the descriptors that
were there before it. -/
structure Separate (addresses : List Word) (last : Gdt) (tssRegs : List Nat) :
    Prop where
  found : ∀ k (below : k < addresses.length),
    ∃ tr, tssRegs[k]? = some tr ∧ last.tss tr = addresses[k]
  kept : ∀ before after middle first, addresses = before ++ after →
    static.initGdt.initTsses before = some (middle, first) →
      ∀ i, i < 5 + 2 * before.length → last.gdt i = middle.gdt i

theorem tss_of_filled
    {tssRegs : List Nat} {k : Nat}
    (filled : Filled s addresses last tssRegs)
    (below : k < addresses.length) :
    last.tss ((s.gdtEntries + 2 * k) * 8) =
      gather (lowerDesc addresses[k]) (upperDesc addresses[k]) := by
  rw [tss, Nat.mul_div_cancel _ (by decide), filled.lower k below,
    filled.upper k below, gather_busy]

/-- What a prefix of the calls has left stays. -/
theorem kept_of_prefix
    {tssRegs first : List Nat} {before after : List Word} {middle : Gdt}
    (room : s.gdtEntries + 2 * (before ++ after).length ≤ maxGdtEntries)
    (run : s.initTsses (before ++ after) = some (last, tssRegs))
    (early : s.initTsses before = some (middle, first))
    {i : Nat} (inside : i < s.gdtEntries + 2 * before.length) :
    last.gdt i = middle.gdt i := by
  rw [List.length_append] at room
  obtain ⟨reached, _, same, filled⟩ := initTsses_spec before s (by omega)
  rw [early] at same
  cases same
  have entries := filled.entries
  obtain ⟨final, later, rest, filledLater⟩ :=
    initTsses_spec after middle (by omega)
  rw [initTsses_append, early, Option.bind_some] at run
  simp only [rest, Option.map_some, Option.some_inj, Prod.mk.injEq] at run
  obtain ⟨rfl, -⟩ := run
  exact filledLater.kept i (by omega)

/-- For up to 16 processors, each finds its segment exactly when bit 31 of every
address is clear or the upper half of the address is all ones. -/
theorem separate_iff
    (addresses : List Word)
    (few : addresses.length ≤ 16) :
    (∃ last tssRegs,
        static.initGdt.initTsses addresses = some (last, tssRegs) ∧
          Separate addresses last tssRegs) ↔
      ∀ address ∈ addresses, Gathered address := by
  have five : static.initGdt.gdtEntries = 5 := rfl
  have room : static.initGdt.gdtEntries + 2 * addresses.length ≤
      maxGdtEntries := by
    rw [five, maxGdtEntries]
    omega
  obtain ⟨last, tssRegs, run, filled⟩ := initTsses_spec addresses _ room
  have found : ∀ k (below : k < addresses.length),
      (∃ tr, tssRegs[k]? = some tr ∧ last.tss tr = addresses[k]) ↔
        Gathered addresses[k] := by
    intro k below
    rw [← gather_eq_iff, ← tss_of_filled filled below, filled.selected k below]
    simp
  constructor
  · rintro ⟨otherLast, otherRegs, otherRun, separate⟩ address member
    rw [run] at otherRun
    cases otherRun
    obtain ⟨k, below, rfl⟩ := List.getElem_of_mem member
    exact (found k below).mp (separate.found k below)
  · intro gathered
    refine ⟨last, tssRegs, run, ?_, ?_⟩
    · exact fun k below =>
        (found k below).mpr (gathered _ (List.getElem_mem below))
    · rintro before after middle first rfl early i inside
      exact kept_of_prefix room run early inside

/-- Two processors with segments at the start of the higher half. -/
theorem separate_lowHeap :
    ∃ last tssRegs,
      static.initGdt.initTsses [0xFFFF800000001000#64, 0xFFFF800000001068#64] =
          some (last, tssRegs) ∧
        Separate [0xFFFF800000001000#64, 0xFFFF800000001068#64] last tssRegs :=
  (separate_iff _ (by decide)).mpr (by
    rintro address (_ | ⟨_, _ | ⟨_, none⟩⟩)
    · exact .inl rfl
    · exact .inl rfl
    · cases none)

/-- A segment two gigabytes above the start of the higher half is not found. -/
theorem not_separate_highHeap :
    (∃ last, static.initGdt.initTsses [0xFFFF800080001000#64] =
        some (last, [40]) ∧
      last.tss 40 = 0xFFFFFFFF80001000#64) ∧
    ¬ ∃ last tssRegs,
      static.initGdt.initTsses [0xFFFF800080001000#64] = some (last, tssRegs) ∧
        Separate [0xFFFF800080001000#64] last tssRegs := by
  refine ⟨⟨_, rfl, by decide⟩, ?_⟩
  rintro ⟨last, tssRegs, run, separate⟩
  cases run
  obtain ⟨tr, selected, found⟩ := separate.found 0 (by decide)
  cases selected
  revert found
  decide

end Gdt
end PivotOs
