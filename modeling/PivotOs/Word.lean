import Mathlib.Data.Nat.Bitwise
import Mathlib.Tactic.Linarith

/-!
# Sizes and address words

The arithmetic macros of `kernel.h`.  Sizes are natural numbers reduced to 64
bits; addresses that are taken apart bit by bit are words.  A virtual address
selects its page by bits 12 to 47, split into four table indices of nine bits.
-/

namespace PivotOs

/-- Reduction of a `size_t` or `uintptr_t` expression to 64 bits. -/
def wrap (value : Nat) : Nat := value % 2 ^ 64

theorem wrap_of_lt {value : Nat} (small : value < 2 ^ 64) :
    wrap value = value :=
  Nat.mod_eq_of_lt small

/-- Difference of two `size_t` or `uintptr_t` values. -/
def wrapSub (left right : Nat) : Nat := wrap (left + (2 ^ 64 - right))

theorem wrapSub_of_le
    {left right : Nat}
    (small : left < 2 ^ 64)
    (ordered : right ≤ left) :
    wrapSub left right = left - right := by
  unfold wrapSub wrap
  omega

/-- `PAGE_SIZE`. -/
def pageSize : Nat := 4096

theorem pageSize_pos : 0 < pageSize := by decide

/-- `DIV_CEIL`, with the sum taken in 64 bits. -/
def divCeil (num dividend : Nat) : Nat :=
  wrap (num + (dividend - 1)) / dividend

/-- `uintptr_t`, `size_t`, and page-table entries. -/
abbrev Word := BitVec 64

instance : LawfulBEq Word := inferInstance

/-- `HIGHER_HALF_OFFSET`. -/
def higherHalfOffset : Word := 0xFFFF800000000000#64

/-- `SIGN_MASK`. -/
def signMask : Word := 0x000ffffffffff000#64

/-- `KERNEL_PT_ENTRY`. -/
def kernelPtEntry : Word := 0b11#64

/-- `USER_PT_ENTRY`. -/
def userPtEntry : Word := 0b111#64

/-- `VADDR`. -/
def vaddr (address : Word) : Word := address ||| higherHalfOffset

/-- `PADDR`. -/
def paddr (address : Word) : Word := address &&& ~~~higherHalfOffset

/-- `ALIGN_ADDR`. -/
def alignAddr (address : Word) : Word := address &&& -(BitVec.ofNat 64 pageSize)

/-- Nine bits of an address, as a table index. -/
def entryIndex (address : Word) (shift : Nat) : Fin 512 :=
  ⟨((address >>> shift) &&& 0x1FF#64).toNat, by
    rw [BitVec.toNat_and]
    exact lt_of_le_of_lt Nat.and_le_right (by decide)⟩

/-- `P4_ENTRY`. -/
def p4Entry (address : Word) : Fin 512 := entryIndex address 39

/-- `P3_ENTRY`. -/
def p3Entry (address : Word) : Fin 512 := entryIndex address 30

/-- `P2_ENTRY`. -/
def p2Entry (address : Word) : Fin 512 := entryIndex address 21

/-- `P1_ENTRY`. -/
def p1Entry (address : Word) : Fin 512 := entryIndex address 12

/-- Bits 12 to 47 of an address: the page that a page table translates. -/
def pageOf (address : Word) : Nat := address.toNat / pageSize % 2 ^ 36

/-- The number of the physical frame at an address. -/
def frameOf (address : Word) : Nat := address.toNat / pageSize

/-! ## Words as numbers -/

theorem entryIndex_val (address : Word) (shift : Nat) :
    (entryIndex address shift).val = address.toNat / 2 ^ shift % 512 := by
  simp only [entryIndex, BitVec.toNat_and, BitVec.toNat_ushiftRight,
    Nat.shiftRight_eq_div_pow]
  exact Nat.and_two_pow_sub_one_eq_mod _ 9

/-- Masking a stretch of bits is arithmetic. -/
theorem and_stretch (value low width : Nat) :
    value &&& (2 ^ width - 1) <<< low =
      value / 2 ^ low % 2 ^ width * 2 ^ low := by
  rw [← Nat.shiftLeft_eq, ← Nat.shiftRight_eq_div_pow]
  apply Nat.eq_of_testBit_eq
  intro bit
  simp only [Nat.testBit_and, Nat.testBit_shiftLeft, Nat.testBit_mod_two_pow,
    Nat.testBit_two_pow_sub_one, Nat.testBit_shiftRight]
  by_cases high : low ≤ bit
  · rw [show low + (bit - low) = bit by omega]
    simp [high, Bool.and_comm]
  · simp [high]

theorem and_signMask_toNat (entry : Word) :
    (entry &&& signMask).toNat = entry.toNat / 4096 % 2 ^ 40 * 4096 := by
  rw [BitVec.toNat_and]
  exact and_stretch entry.toNat 12 40

theorem alignAddr_toNat (address : Word) :
    (alignAddr address).toNat = address.toNat / 4096 * 4096 := by
  have small : address.toNat / 2 ^ 12 < 2 ^ 52 := by omega
  rw [alignAddr, BitVec.toNat_and]
  have stretch := and_stretch address.toNat 12 52
  rw [Nat.mod_eq_of_lt small] at stretch
  exact stretch

theorem and_one_toNat (entry : Word) :
    (entry &&& 1#64).toNat = entry.toNat % 2 := by
  rw [BitVec.toNat_and]
  exact Nat.and_two_pow_sub_one_eq_mod _ 1

/-- Flags below a page do not disturb an aligned address. -/
theorem or_flags_toNat
    {address flags : Word}
    (aligned : address.toNat % 4096 = 0)
    (small : flags.toNat < 4096) :
    (address ||| flags).toNat = address.toNat + flags.toNat := by
  rw [BitVec.toNat_or]
  have sum := Nat.two_pow_add_eq_or_of_lt (i := 12) small
    (address.toNat / 4096)
  rw [show 2 ^ 12 * (address.toNat / 4096) = address.toNat by omega] at sum
  exact sum.symm

/-- Flags below a page are masked away. -/
theorem or_flags_and_signMask
    {address flags : Word}
    (aligned : address.toNat % 4096 = 0)
    (small : flags.toNat < 4096) :
    (address ||| flags) &&& signMask = address &&& signMask := by
  apply BitVec.eq_of_toNat_eq
  rw [and_signMask_toNat, and_signMask_toNat, or_flags_toNat aligned small]
  omega

/-- Masking keeps an aligned physical address. -/
theorem and_signMask_of_aligned
    {address : Word}
    (aligned : address.toNat % 4096 = 0)
    (small : address.toNat < 2 ^ 52) :
    address &&& signMask = address := by
  apply BitVec.eq_of_toNat_eq
  rw [and_signMask_toNat]
  omega

theorem alignAddr_of_aligned
    {address : Word}
    (aligned : address.toNat % 4096 = 0) :
    alignAddr address = address := by
  apply BitVec.eq_of_toNat_eq
  rw [alignAddr_toNat]
  omega

/-! ## Pages and indices -/

/-- Two page-aligned addresses in one frame are the same. -/
theorem eq_of_frameOf_eq
    {left right : Word}
    (leftAligned : left.toNat % 4096 = 0)
    (rightAligned : right.toNat % 4096 = 0)
    (same : frameOf left = frameOf right) :
    left = right := by
  apply BitVec.eq_of_toNat_eq
  unfold frameOf pageSize at same
  omega

/-- Below the 48 bits of a virtual address a frame is its own page. -/
theorem pageOf_eq_frameOf {address : Word} (small : frameOf address < 2 ^ 36) :
    pageOf address = frameOf address :=
  Nat.mod_eq_of_lt small

theorem pageOf_alignAddr (address : Word) :
    pageOf (alignAddr address) = pageOf address := by
  simp only [pageOf, pageSize, alignAddr_toNat]
  omega

/-- The four indices of an address determine its page, and conversely. -/
theorem pageOf_eq_iff (left right : Word) :
    pageOf left = pageOf right ↔
      p4Entry left = p4Entry right ∧ p3Entry left = p3Entry right ∧
        p2Entry left = p2Entry right ∧ p1Entry left = p1Entry right := by
  simp only [Fin.ext_iff, p4Entry, p3Entry, p2Entry, p1Entry, entryIndex_val,
    pageOf, pageSize]
  omega

/-- Pages of the higher half are above those of the lower half. -/
theorem le_pageOf_of_bit {address : Word} (bit : address.getLsbD 47 = true) :
    2 ^ 35 ≤ pageOf address := by
  have odd : address.toNat / 2 ^ 47 % 2 = 1 := by
    have value := Nat.testBit_eq_decide_div_mod_eq (x := address.toNat)
      (i := 47)
    rw [← BitVec.getLsbD, bit] at value
    simpa using value.symm
  unfold pageOf pageSize
  omega

/-- `VADDR` sets bit 47. -/
theorem vaddr_bit (address : Word) : (vaddr address).getLsbD 47 = true := by
  rw [vaddr, BitVec.getLsbD_or,
    show higherHalfOffset.getLsbD 47 = true by decide, Bool.or_true]

/-- `PADDR` keeps an address of the lower half. -/
theorem vaddr_toNat {address : Word} (low : address.toNat < 2 ^ 47) :
    (vaddr address).toNat = higherHalfOffset.toNat + address.toNat := by
  rw [vaddr, BitVec.toNat_or]
  have sum := Nat.two_pow_add_eq_or_of_lt low (2 ^ 17 - 1)
  rw [Nat.lor_comm]
  exact sum.symm

theorem paddr_of_low {address : Word} (low : address.toNat < 2 ^ 47) :
    paddr address = address := by
  apply BitVec.eq_of_toNat_eq
  have mask : (~~~higherHalfOffset).toNat = 2 ^ 47 - 1 := by decide
  rw [paddr, BitVec.toNat_and, mask, Nat.and_two_pow_sub_one_eq_mod,
    Nat.mod_eq_of_lt low]

end PivotOs
