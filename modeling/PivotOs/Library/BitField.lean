import Mathlib.Data.BitVec

/-!
# Bit fields

A field of a word is a stretch of its bits.  Assigning to a field changes these
bits and no others, so fields that do not overlap are independent.
-/

namespace BitField

variable {size start width other : Nat} {word : BitVec size}

/-- The field of `width` bits that starts at a bit. -/
def get (start width : Nat) (word : BitVec size) : BitVec width :=
  word.extractLsb' start width

/-- Assign to the field that starts at a bit. -/
def set (start : Nat) (value : BitVec width) (word : BitVec size) :
    BitVec size :=
  (word &&& ~~~((BitVec.allOnes width).setWidth size <<< start)) |||
    (value.setWidth size <<< start)

theorem getLsbD_set
    {i : Nat} (value : BitVec width)
    (inside : i < size) :
    (set start value word).getLsbD i =
      if start ≤ i ∧ i < start + width then value.getLsbD (i - start)
      else word.getLsbD i := by
  rw [set, BitVec.getLsbD_or, BitVec.getLsbD_and, BitVec.getLsbD_not,
    BitVec.getLsbD_shiftLeft, BitVec.getLsbD_shiftLeft, BitVec.getLsbD_setWidth,
    BitVec.getLsbD_setWidth, BitVec.getLsbD_allOnes]
  by_cases before : i < start
  · simp [inside, before, Nat.not_le.mpr before]
  · have position : i - start < size := by omega
    by_cases behind : i - start < width
    · have within : start ≤ i ∧ i < start + width := by omega
      simp [inside, before, position, behind, within]
    · have outside : ¬ (start ≤ i ∧ i < start + width) := by omega
      have absent : value.getLsbD (i - start) = false :=
        BitVec.getLsbD_of_ge value _ (by omega)
      simp [inside, before, behind, outside, absent]

/-- A field holds what was assigned to it. -/
theorem get_set_same
    (value : BitVec width)
    (fits : start + width ≤ size) :
    get start width (set start value word) = value := by
  apply BitVec.eq_of_getLsbD_eq
  intro i below
  rw [get, BitVec.getLsbD_extractLsb', getLsbD_set value (by omega), if_pos]
  · simp [below]
  · omega

/-- Another field keeps what it holds. -/
theorem get_set_other
    {length : Nat} (value : BitVec width)
    (fits : other + length ≤ size)
    (apart : other + length ≤ start ∨ start + width ≤ other) :
    get other length (set start value word) = get other length word := by
  apply BitVec.eq_of_getLsbD_eq
  intro i below
  rw [get, get, BitVec.getLsbD_extractLsb', BitVec.getLsbD_extractLsb',
    getLsbD_set value (by omega), if_neg]
  omega

/-- The last of several assignments counts. -/
theorem set_set
    (first second : BitVec width) :
    set start second (set start first word) = set start second word := by
  apply BitVec.eq_of_getLsbD_eq
  intro i below
  rw [getLsbD_set second below, getLsbD_set first below,
    getLsbD_set second below]
  split <;> rfl

/-- Assigning what a field holds changes nothing. -/
theorem set_get (start width : Nat) :
    set start (get start width word) word = word := by
  apply BitVec.eq_of_getLsbD_eq
  intro i below
  rw [getLsbD_set _ below]
  split
  · next within =>
      rw [get, BitVec.getLsbD_extractLsb', Nat.add_sub_cancel' within.1]
      simp
      omega
  · rfl

/-- The upper part of two words put together. -/
theorem get_append_high
    {high low : Nat} (upper : BitVec high) (lower : BitVec low)
    (above : low ≤ start) :
    get start width (upper ++ lower) = get (start - low) width upper := by
  apply BitVec.eq_of_getLsbD_eq
  intro i below
  rw [get, get, BitVec.getLsbD_extractLsb', BitVec.getLsbD_extractLsb',
    BitVec.getLsbD_append, if_neg (by omega),
    show start + i - low = start - low + i by omega]

/-- The lower part of two words put together. -/
theorem get_append_low
    {high low : Nat} (upper : BitVec high) (lower : BitVec low)
    (inside : start + width ≤ low) :
    get start width (upper ++ lower) = get start width lower := by
  apply BitVec.eq_of_getLsbD_eq
  intro i below
  rw [get, get, BitVec.getLsbD_extractLsb', BitVec.getLsbD_extractLsb',
    BitVec.getLsbD_append, if_pos (by omega)]

/-- All the bits of a word. -/
theorem get_all : get 0 size word = word := BitVec.extractLsb'_eq_self

end BitField
