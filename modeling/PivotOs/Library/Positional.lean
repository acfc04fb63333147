import Mathlib.Data.Nat.Digits.Lemmas

/-!
# Positional notation

A text of digits is read with the most significant digit first.  Which digit a
symbol stands for is a parameter, and a symbol may stand for none.  A text is
canonical when it has no needless zero in front, and the digits of a number,
turned around, are a canonical text of it.
-/

namespace Positional

variable {Symbol : Type*} {digitOf : Symbol → Option Nat} {radix n value : Nat}
  {text rest : List Symbol}

/-- The number that a text stands for behind the digits of `value`.  A text
with a symbol that is not a digit of the radix stands for none. -/
def readFrom (digitOf : Symbol → Option Nat) (radix : Nat) :
    Nat → List Symbol → Option Nat
  | value, [] => some value
  | value, symbol :: rest =>
      (digitOf symbol).bind fun digit =>
        if digit < radix then
          readFrom digitOf radix (value * radix + digit) rest
        else none

/-- The canonical text of a number. -/
structure Canonical
    (digitOf : Symbol → Option Nat)
    (radix n : Nat)
    (text : List Symbol) : Prop where
  /-- It has a digit. -/
  nonempty : text ≠ []
  /-- The digits stand for the number. -/
  value : readFrom digitOf radix 0 text = some n
  /-- The first of several digits is not 0. -/
  leading : ∀ first second rest,
    text = first :: second :: rest → digitOf first ≠ some 0

theorem readFrom_append :
    readFrom digitOf radix value (text ++ rest) =
      (readFrom digitOf radix value text).bind fun value =>
        readFrom digitOf radix value rest := by
  induction text generalizing value with
  | nil => rfl
  | cons symbol text inductionHypothesis =>
      rw [List.cons_append, readFrom, readFrom, Option.bind_assoc]
      refine congrArg _ (funext fun digit => ?_)
      split
      · exact inductionHypothesis
      · rfl

/-- Only digits have a value. -/
theorem exists_digit_of_mem
    {symbol : Symbol}
    (read : readFrom digitOf radix value text = some n)
    (member : symbol ∈ text) :
    ∃ digit, digitOf symbol = some digit := by
  induction text generalizing value with
  | nil => cases member
  | cons first text inductionHypothesis =>
      rw [readFrom, Option.bind_eq_some_iff] at read
      obtain ⟨digit, found, read⟩ := read
      split at read
      · cases member with
        | head => exact ⟨digit, found⟩
        | tail _ later => exact inductionHypothesis read later
      · cases read

section Digits

variable {symbol : Nat → Symbol}

/-- Digits that are listed from the last one on. -/
theorem readFrom_reverse
    (symbols : ∀ digit, digit < radix → digitOf (symbol digit) = some digit)
    (digits : List Nat)
    (below : ∀ digit ∈ digits, digit < radix) :
    readFrom digitOf radix value (digits.map symbol).reverse =
      some (value * radix ^ digits.length + Nat.ofDigits radix digits) := by
  induction digits with
  | nil => simp [readFrom]
  | cons last digits inductionHypothesis =>
      have small : last < radix := below last List.mem_cons_self
      rw [List.map_cons, List.reverse_cons, readFrom_append,
        inductionHypothesis fun digit member =>
          below digit (List.mem_cons_of_mem last member),
        Option.bind_some, readFrom, symbols last small, Option.bind_some,
        if_pos small, readFrom, List.length_cons, Nat.ofDigits_cons]
      refine congrArg some ?_
      ring

theorem canonical_zero
    (symbols : ∀ digit, digit < radix → digitOf (symbol digit) = some digit)
    (positive : 0 < radix) :
    Canonical digitOf radix 0 [symbol 0] where
  nonempty := List.cons_ne_nil _ _
  value := by
    rw [readFrom, symbols 0 positive, Option.bind_some, if_pos positive,
      readFrom, Nat.zero_mul]
  leading := by
    intro first second rest equal
    cases equal

/-- The digits of a number, turned around, are its canonical text. -/
theorem canonical_digits
    (symbols : ∀ digit, digit < radix → digitOf (symbol digit) = some digit)
    (large : 1 < radix)
    (notZero : n ≠ 0) :
    Canonical digitOf radix n ((Nat.digits radix n).map symbol).reverse where
  nonempty := by
    rw [Ne, List.reverse_eq_nil_iff, List.map_eq_nil_iff]
    exact Nat.digits_ne_nil_iff_ne_zero.mpr notZero
  value := by
    rw [readFrom_reverse symbols _ fun digit => Nat.digits_lt_base large,
      Nat.zero_mul, Nat.zero_add, Nat.ofDigits_digits]
  leading := by
    intro first second rest equal zero
    have nonempty : Nat.digits radix n ≠ [] :=
      Nat.digits_ne_nil_iff_ne_zero.mpr notZero
    have head : ((Nat.digits radix n).map symbol).reverse.head? =
        some first := by rw [equal]; rfl
    rw [List.head?_reverse, List.getLast?_map,
      List.getLast?_eq_getLast_of_ne_nil nonempty, Option.map_some,
      Option.some_inj] at head
    have below : (Nat.digits radix n).getLast nonempty < radix :=
      Nat.digits_lt_base large (List.getLast_mem nonempty)
    rw [← head, symbols _ below, Option.some_inj] at zero
    exact Nat.getLast_digit_ne_zero radix notZero zero

end Digits
end Positional
