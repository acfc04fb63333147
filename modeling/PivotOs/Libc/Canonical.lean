import PivotOs.Libc.Numerals
import PivotOs.Library.Positional

/-!
# The numerals are canonical

`ultoa` stores the canonical numeral of any number in any radix from 2 to 36.
`itoa` does so behind a sign, with one exception: `sum = -sum` leaves
`INT64_MIN` negative, and its digits become characters in front of `'0'`.
-/

namespace PivotOs
namespace Libc

open Positional (Canonical)

/-- The digit that a character stands for, 0-9 or A-Z. -/
def digitValue (character : Byte) : Option Nat :=
  if ascii '0' ≤ character ∧ character ≤ ascii '9' then
    some (character.toNat - '0'.toNat)
  else if ascii 'A' ≤ character ∧ character ≤ ascii 'Z' then
    some (character.toNat - 'A'.toNat + 10)
  else none

/-- The canonical numeral of a signed number: a sign exactly when it is
negative, and the numeral of its absolute value. -/
def SignedCanonical (base : Nat) (n : Int) (text : List Byte) : Prop :=
  ∃ digits, text = (if n < 0 then [ascii '-'] else []) ++ digits ∧
    Canonical digitValue base n.natAbs digits

/-- `itoa` stores the canonical numeral, within `len` characters, and returns
its length. -/
def ItoaCanonical (num : Word) (len : Int) (base : Nat) : Prop :=
  ∃ text : List Byte,
    SignedCanonical base num.toInt text ∧ text.length ≤ len ∧
      ∀ (size str : Nat) (buffer : Buffer Byte size),
        str + text.length ≤ size →
          itoa num str len base buffer =
            some (text.length, buffer.overlay str text)

variable {base radix n : Nat}

theorem digitValue_digitChar
    (digit : Nat)
    (small : digit < 36) :
    digitValue (digitChar digit) = some digit := by
  have all : ∀ digit : Fin 36,
      digitValue (digitChar digit.val) = some digit.val := by decide
  exact all ⟨digit, small⟩

/-- The characters of negative digits. -/
theorem digitValue_itoaDigit_neg
    (digit : Nat)
    (small : digit < 36)
    (notZero : digit ≠ 0) :
    digitValue (itoaDigit (-1 * digit)) = none := by
  have all : ∀ digit : Fin 36, digit.val ≠ 0 →
      digitValue (itoaDigit (-1 * (digit.val : Int))) = none := by decide
  exact all ⟨digit, small⟩ notZero

theorem numeral_canonical
    (large : 1 < radix)
    (few : radix ≤ 36)
    (n : Nat) :
    Canonical digitValue radix n (numeral radix n) := by
  have symbols : ∀ digit, digit < radix →
      digitValue (digitChar digit) = some digit := fun digit below =>
    digitValue_digitChar digit (by omega)
  unfold numeral places
  split
  · next zero =>
      rw [zero]
      exact Positional.canonical_zero symbols (by omega)
  · next notZero => exact Positional.canonical_digits symbols large notZero

/-- Every radix gives between 1 and 64 digits. -/
theorem numeral_length_bounds
    (large : 1 < radix)
    (small : n < 2 ^ 64) :
    1 ≤ (numeral radix n).length ∧ (numeral radix n).length ≤ 64 := by
  rw [numeral_length]
  constructor
  · rw [places_eq_cons large]
    exact Nat.succ_pos _
  · exact places_length_le large (by decide)
      (small.trans_le (Nat.pow_le_pow_left large 64))

/-- `ultoa` writes the canonical numeral of every number in every radix from 2
to 36, at most 64 characters, and returns their number. -/
theorem ultoa_canonical
    (num : Word)
    (radix : Nat)
    (large : 2 ≤ radix)
    (few : radix ≤ 36) :
    ∃ text : List Byte,
      1 ≤ text.length ∧ text.length ≤ 64 ∧
        Canonical digitValue radix num.toNat text ∧
          ∀ (size str : Nat) (buffer : Buffer Byte size),
            str + text.length ≤ size →
              ultoa num str radix buffer =
                some (text.length, buffer.overlay str text) := by
  obtain ⟨one, most⟩ := numeral_length_bounds large num.isLt
  refine ⟨numeral radix num.toNat, one, most,
    numeral_canonical large few _, fun size str buffer fits => ?_⟩
  have nonempty : numeral radix num.toNat ≠ [] := List.length_pos_iff.mp one
  rw [ultoa_eq num str buffer large, Buffer.storeAll_eq (Or.inr nonempty),
    if_pos fits, Option.map_some]

theorem ultoa_canonical_binary :
    ∃ text : List Byte,
      1 ≤ text.length ∧ text.length ≤ 64 ∧
        Canonical digitValue 2 (BitVec.allOnes 64).toNat text ∧
          ∀ (size str : Nat) (buffer : Buffer Byte size),
            str + text.length ≤ size →
              ultoa (BitVec.allOnes 64) str 2 buffer =
                some (text.length, buffer.overlay str text) :=
  ultoa_canonical (BitVec.allOnes 64) 2 (by decide) (by decide)

/-! ## `itoa` -/

/-- The calls that are made: those of `vprintf`, and those with room for every
digit of any base. -/
def ItoaCall (len : Int) (base : Nat) : Prop :=
  base = 10 ∧ len = 21 ∨ 2 ≤ base ∧ base ≤ 36 ∧ 66 ≤ len

theorem natAbs_toInt_le (num : Word) : num.toInt.natAbs ≤ 2 ^ 63 := by
  have low := BitVec.le_toInt num
  have high := BitVec.toInt_lt (x := num)
  omega

/-- There is room for the digits and a sign. -/
theorem ItoaCall.room
    {len : Int}
    (call : ItoaCall len base)
    (num : Word) :
    1 < base ∧ base ≤ 36 ∧
      (places base num.toInt.natAbs).length + 1 ≤ len := by
  have small := natAbs_toInt_le num
  rcases call with ⟨rfl, rfl⟩ | ⟨large, few, room⟩
  · have short : (places 10 num.toInt.natAbs).length ≤ 20 :=
      places_length_le (by decide) (by decide) (by omega)
    exact ⟨by decide, by decide, by omega⟩
  · have short : (places base num.toInt.natAbs).length ≤ 64 := by
      refine places_length_le large (by decide) ?_
      calc num.toInt.natAbs < 2 ^ 64 := by omega
        _ ≤ base ^ 64 := Nat.pow_le_pow_left large 64
    exact ⟨large, few, by omega⟩

theorem itoaText_length_le (base : Nat) (num : Word) :
    (itoaText base num).length ≤
      (places base num.toInt.natAbs).length + 1 := by
  unfold itoaText
  rw [List.length_append, List.length_reverse, List.length_map]
  split
  · rw [List.length_singleton]
    omega
  · rw [List.length_nil]
    omega

theorem itoaText_ne_nil
    (large : 1 < base)
    (num : Word) :
    itoaText base num ≠ [] := by
  unfold itoaText
  rw [Ne, List.append_eq_nil_iff, List.reverse_eq_nil_iff, List.map_eq_nil_iff,
    places_eq_cons large]
  exact fun empty => List.cons_ne_nil _ _ empty.2

/-- What `itoa` stores is determined by its text. -/
theorem itoa_call
    {size : Nat} {len : Int}
    (num : Word) (str : Nat) (buffer : Buffer Byte size)
    (call : ItoaCall len base) :
    itoa num str len base buffer =
      if str + (itoaText base num).length ≤ size then
        some ((itoaText base num).length, buffer.overlay str (itoaText base num))
      else none := by
  obtain ⟨large, -, room⟩ := call.room num
  rw [itoa_eq base num buffer large (by omega),
    Buffer.storeAll_eq (Or.inr (itoaText_ne_nil large num))]
  split <;> rfl

/-- The text that is stored is the only one that can be meant. -/
theorem itoaCanonical_iff_text
    {len : Int}
    (num : Word)
    (call : ItoaCall len base) :
    ItoaCanonical num len base ↔
      SignedCanonical base num.toInt (itoaText base num) := by
  obtain ⟨large, -, room⟩ := call.room num
  constructor
  · rintro ⟨text, canonical, -, stores⟩
    have stored := stores text.length 0 ⟨fun _ => 0#8⟩ (by omega)
    rw [itoa_call num 0 _ call] at stored
    split at stored
    · obtain ⟨length_eq, overlay_eq⟩ := Prod.mk.inj (Option.some.inj stored)
      have same := Buffer.overlay_injective length_eq overlay_eq
      rw [same]
      exact canonical
    · cases stored
  · intro canonical
    have short := itoaText_length_le base num
    refine ⟨itoaText base num, canonical, by omega, ?_⟩
    intro size str buffer fits
    rw [itoa_call num str buffer call, if_pos fits]

/-- The first digit of `INT64_MIN` becomes a character that is no digit. -/
theorem least_not_canonical
    (large : 1 < base)
    (few : base ≤ 36) :
    ¬ SignedCanonical base (BitVec.intMin 64).toInt
        (itoaText base (BitVec.intMin 64)) := by
  rintro ⟨digits, text_eq, canonical⟩
  have negative : (BitVec.intMin 64).toInt < 0 := by decide
  have notZero : (BitVec.intMin 64).toInt.natAbs ≠ 0 := by decide
  rw [itoaText, if_pos negative, if_pos rfl, List.append_cancel_left_eq,
    places, if_neg notZero] at text_eq
  have nonempty : Nat.digits base (BitVec.intMin 64).toInt.natAbs ≠ [] :=
    Nat.digits_ne_nil_iff_ne_zero.mpr notZero
  set first := (Nat.digits base (BitVec.intMin 64).toInt.natAbs).getLast nonempty
  have member : first ∈ Nat.digits base (BitVec.intMin 64).toInt.natAbs :=
    List.getLast_mem nonempty
  have below : first < base := Nat.digits_lt_base large member
  have shown : itoaDigit (-1 * first) ∈ digits := by
    rw [← text_eq, List.mem_reverse]
    exact List.mem_map_of_mem member
  obtain ⟨digit, found⟩ := Positional.exists_digit_of_mem canonical.value shown
  rw [digitValue_itoaDigit_neg first (by omega)
    (Nat.getLast_digit_ne_zero base notZero)] at found
  cases found

/-- `itoa` writes the canonical signed numeral of every number but
`INT64_MIN`. -/
theorem itoa_canonical_iff
    (num : Word)
    (len : Int)
    (base : Nat)
    (call : ItoaCall len base) :
    ItoaCanonical num len base ↔ num ≠ BitVec.intMin 64 := by
  rw [itoaCanonical_iff_text num call]
  obtain ⟨large, few, -⟩ := call.room num
  constructor
  · rintro canonical rfl
    exact least_not_canonical large few canonical
  · intro notLeast
    exact ⟨numeral base num.toInt.natAbs, itoaText_eq_append base notLeast,
      numeral_canonical large few _⟩

theorem itoa_canonical_iff_vprintf :
    ItoaCanonical (-1#64) 21 10 ↔ -1#64 ≠ BitVec.intMin 64 :=
  itoa_canonical_iff (-1#64) 21 10 (Or.inl ⟨rfl, rfl⟩)

/-- `INT64_MIN` is written as `-` and characters that are no digits. -/
theorem itoa_least_not_canonical :
    ¬ ∀ (num : Word) (len : Int) (base : Nat),
      ItoaCall len base → ItoaCanonical num len base := by
  intro always
  have call : ItoaCall 21 10 := Or.inl ⟨rfl, rfl⟩
  exact least_not_canonical (by decide) (by decide)
    ((itoaCanonical_iff_text _ call).mp
      (always (BitVec.intMin 64) 21 10 call))

end Libc
end PivotOs
