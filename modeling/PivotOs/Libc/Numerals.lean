import PivotOs.Library.Buffer
import PivotOs.Word
import Mathlib.Data.Nat.Digits.Lemmas

/-!
# Numbers as text

`itoa`, `ultoa` and `strrev` of `libc/string.c`.  Both number formatters find
the last digit first: `itoa` stores the digits in the buffer it is given and
reverses them there, and `ultoa` collects them in a buffer of its own.  Storing
outside of a buffer is refused.
-/

namespace PivotOs

/-- `char`. -/
abbrev Byte := BitVec 8

/-- A character of the source. -/
def ascii (character : Char) : Byte := BitVec.ofNat 8 character.toNat

/-- A C string, without its final zero. -/
structure CString where
  /-- The bytes before the zero. -/
  text : List Byte
  /-- The string ends with its first zero. -/
  nonzero : 0#8 ∉ text

namespace Libc

/-! ## The functions -/

variable {size : Nat}

/-- The loop of `strrev`, with `j` from `len - 1` down.  For an empty string
`len - 1` is -1 as an `int`, and the loop ends at once; so it does with 0. -/
def strrevLoop (str : Nat) :
    (rounds i j : Nat) → Buffer Byte size → Option (Buffer Byte size)
  | 0, _, _, buffer => some buffer
  | rounds + 1, i, j, buffer =>
      if i < j then
        let a := buffer.item (str + i)
        (buffer.store (str + i) (buffer.item (str + j))).bind fun buffer =>
          (buffer.store (str + j) a).bind
            (strrevLoop str rounds (i + 1) (j - 1))
      else some buffer

/-- `strrev`. -/
def strrev (str len : Nat) (buffer : Buffer Byte size) :
    Option (Buffer Byte size) :=
  strrevLoop str len 0 (len - 1) buffer

/-- The character that `itoa` stores for a digit. -/
def itoaDigit (digit : Int) : Byte :=
  if digit < 0xA then BitVec.ofInt 8 ('0'.toNat + digit)
  else BitVec.ofInt 8 ('A'.toNat + digit - 0xA)

/-- The loop of `itoa`: what is left of `sum`, and the number of characters
stored. -/
def itoaLoop (str : Nat) (len base : Int) :
    (rounds : Nat) → (sum : Int) → (i : Nat) → Buffer Byte size →
      Option (Int × Nat × Buffer Byte size)
  | 0, _, _, _ => none
  | rounds + 1, sum, i, buffer =>
      (buffer.store (str + i) (itoaDigit (sum.tmod base))).bind fun buffer =>
        let i := i + 1
        let sum := sum.tdiv base
        if sum ≠ 0 ∧ (i : Int) < len - 1 then
          itoaLoop str len base rounds sum i buffer
        else some (sum, i, buffer)

/-- `itoa`.  The negation of `INT64_MIN` is taken to wrap around.  The loop
stops after `len - 1` characters, and stores one in any case. -/
def itoa (num : Word) (str : Nat) (len base : Int)
    (buffer : Buffer Byte size) : Option (Nat × Buffer Byte size) :=
  let sum := if num.toInt < 0 then (-num).toInt else num.toInt
  if len = 0 then some (0, buffer)
  else
    (itoaLoop str len base (len.toNat + 1) sum 0 buffer).bind fun result =>
      let sum := result.1
      let i := result.2.1
      let buffer := result.2.2
      if i = len - 1 ∧ sum ≠ 0 then some (i, buffer)
      else if num.toInt < 0 then
        (buffer.store (str + i) (ascii '-')).bind fun buffer =>
          (strrev str (i + 1) buffer).map fun buffer => (i + 1, buffer)
      else (strrev str i buffer).map fun buffer => (i, buffer)

/-- The character that `ultoa` stores for a digit. -/
def ultoaDigit (digit : Nat) : Byte :=
  if digit < 10 then BitVec.ofNat 8 (digit + '0'.toNat)
  else BitVec.ofNat 8 (digit - 10 + 'A'.toNat)

/-- The first loop of `ultoa`: `temp_loc` and `temp`, which is `char[65]`.  The
last of the rounds would store outside of it. -/
def ultoaLoop (radix : Nat) :
    (rounds num tempLoc : Nat) → Buffer Byte 65 →
      Option (Nat × Buffer Byte 65)
  | 0, _, _, _ => none
  | rounds + 1, num, tempLoc, temp =>
      (temp.store tempLoc (ultoaDigit (num % radix))).bind fun temp =>
        if num / radix > 0 then
          ultoaLoop radix rounds (num / radix) (tempLoc + 1) temp
        else some (tempLoc + 1, temp)

/-- The second loop of `ultoa`, which copies the first characters of `temp`
from the last one on. -/
def ultoaCopy (temp : Buffer Byte 65) (str : Nat) :
    (count strLoc : Nat) → Buffer Byte size → Option (Nat × Buffer Byte size)
  | 0, strLoc, buffer => some (strLoc, buffer)
  | count + 1, strLoc, buffer =>
      (buffer.store (str + strLoc) (temp.item count)).bind
        (ultoaCopy temp str count (strLoc + 1))

/-- `ultoa`. -/
def ultoa (num : Word) (str radix : Nat) (buffer : Buffer Byte size) :
    Option (Nat × Buffer Byte size) :=
  (ultoaLoop radix 66 num.toNat 0 ⟨fun _ => 0#8⟩).bind fun result =>
    ultoaCopy result.2 str result.1 0 buffer

/-! ## Numerals -/

/-- The digits of a number, the last digit first; 0 has one digit. -/
def places (radix n : Nat) : List Nat :=
  if n = 0 then [0] else Nat.digits radix n

/-- The character for a digit. -/
def digitChar (digit : Nat) : Byte :=
  if digit < 10 then ascii '0' + BitVec.ofNat 8 digit
  else ascii 'A' + BitVec.ofNat 8 (digit - 10)

/-- The numeral of a number. -/
def numeral (radix n : Nat) : List Byte :=
  ((places radix n).map digitChar).reverse

/-- The decimal numeral of a signed number. -/
def decimal (num : Word) : List Byte :=
  if num.toInt < 0 then ascii '-' :: numeral 10 num.toInt.natAbs
  else numeral 10 num.toInt.natAbs

/-- What `itoa` makes of a signed number: for `INT64_MIN`, which is its own
negation, the digits are negative and their characters are those in front of
`'0'`. -/
def itoaText (base : Nat) (num : Word) : List Byte :=
  let sign : Int := if num = BitVec.intMin 64 then -1 else 1
  (if num.toInt < 0 then [ascii '-'] else []) ++
    ((places base num.toInt.natAbs).map fun digit : Nat =>
      itoaDigit (sign * digit)).reverse

variable {base radix n str : Nat} {buffer : Buffer Byte size}

theorem places_eq_cons (large : 1 < radix) (n : Nat) :
    places radix n =
      n % radix :: if n / radix = 0 then [] else places radix (n / radix) := by
  by_cases zero : n = 0
  · simp [places, zero]
  · rw [places, if_neg zero, Nat.digits_eq_cons_digits_div large zero]
    by_cases last : n / radix = 0
    · rw [if_pos last, last, Nat.digits_zero]
    · rw [if_neg last, places, if_neg last]

theorem places_length_le
    {k : Nat}
    (large : 1 < radix)
    (some : 0 < k)
    (small : n < radix ^ k) :
    (places radix n).length ≤ k := by
  unfold places
  split
  · exact some
  · exact (Nat.digits_length_le_iff large n).mpr small

theorem ultoaDigit_eq (digit : Nat) : ultoaDigit digit = digitChar digit := by
  unfold ultoaDigit digitChar ascii
  split
  · rw [Nat.add_comm, BitVec.ofNat_add]
  · rw [Nat.add_comm, BitVec.ofNat_add]

theorem itoaDigit_eq (digit : Nat) :
    itoaDigit (digit : Int) = digitChar digit := by
  unfold itoaDigit digitChar ascii
  by_cases small : digit < 10
  · rw [if_pos (by omega), if_pos small, ← BitVec.ofNat_add]
    exact BitVec.ofInt_natCast 8 _
  · have cast : ('A'.toNat + digit - 0xA : Int) =
        (('A'.toNat + (digit - 10) : Nat) : Int) := by omega
    rw [if_neg (by omega), if_neg small, ← BitVec.ofNat_add, cast]
    exact BitVec.ofInt_natCast 8 _

/-! ## `ultoa` -/

theorem ultoaLoop_eq
    (rounds n tempLoc : Nat) (temp : Buffer Byte 65)
    (large : 1 < radix)
    (enough : (places radix n).length ≤ rounds) :
    ultoaLoop radix rounds n tempLoc temp =
      (temp.storeAll tempLoc ((places radix n).map digitChar)).map
        fun temp => (tempLoc + (places radix n).length, temp) := by
  induction rounds generalizing n tempLoc temp with
  | zero =>
      rw [places_eq_cons large] at enough
      simp at enough
  | succ rounds inductionHypothesis =>
      rw [places_eq_cons large] at enough ⊢
      rw [ultoaLoop, List.map_cons, Buffer.storeAll_cons, Option.map_bind,
        ultoaDigit_eq]
      refine congrArg _ (funext fun middle => ?_)
      by_cases last : n / radix = 0
      · simp [last]
      · simp only [if_neg last, List.length_cons, Nat.add_le_add_iff_right]
          at enough
        simp only [if_neg last, if_pos (Nat.pos_of_ne_zero last),
          Function.comp_apply, List.length_cons]
        rw [inductionHypothesis _ _ _ enough, Nat.add_right_comm,
          Nat.add_assoc]

theorem ultoaCopy_eq
    (temp : Buffer Byte 65)
    (count strLoc : Nat) (buffer : Buffer Byte size) :
    ultoaCopy temp str count strLoc buffer =
      (buffer.storeAll (str + strLoc) (temp.read count).reverse).map
        fun buffer => (strLoc + count, buffer) := by
  induction count generalizing strLoc buffer with
  | zero => rfl
  | succ count inductionHypothesis =>
      rw [ultoaCopy, Buffer.read_succ, List.reverse_append,
        List.reverse_singleton, List.singleton_append, Buffer.storeAll_cons,
        Option.map_bind]
      refine congrArg _ (funext fun middle => ?_)
      rw [inductionHypothesis, Function.comp_apply, Nat.add_assoc str,
        Nat.add_assoc, Nat.add_comm 1]

theorem numeral_length (radix n : Nat) :
    (numeral radix n).length = (places radix n).length := by
  simp [numeral]

/-- `ultoa` stores the numeral. -/
theorem ultoa_eq
    (num : Word) (str : Nat) (buffer : Buffer Byte size)
    (large : 1 < radix) :
    ultoa num str radix buffer =
      (buffer.storeAll str (numeral radix num.toNat)).map
        fun buffer => ((numeral radix num.toNat).length, buffer) := by
  have few : (places radix num.toNat).length ≤ 64 := by
    refine places_length_le large (by decide) ?_
    exact num.isLt.trans_le (Nat.pow_le_pow_left large 64)
  have fits : 0 + ((places radix num.toNat).map digitChar).length ≤ 65 := by
    rw [List.length_map]
    omega
  rw [ultoa, ultoaLoop_eq 66 _ _ _ large (by omega),
    Buffer.storeAll_eq (Or.inl (Nat.zero_le _)), if_pos fits, Option.map_some,
    Option.bind_some, ultoaCopy_eq, Nat.add_zero, numeral_length]
  have read : (Buffer.overlay 0 ((places radix num.toNat).map digitChar)
      (⟨fun _ => 0#8⟩ : Buffer Byte 65)).read
        (0 + ((places radix num.toNat).map digitChar).length) = _ :=
    Buffer.read_overlay
  rw [List.length_map] at read
  simp only [Nat.zero_add] at read ⊢
  rw [read]
  rfl

/-! ## `itoa` -/

/-- There is nothing to turn around between places that have met. -/
theorem mirror_of_crossed
    {i j : Nat} (buffer : Buffer Byte size)
    (crossed : j ≤ i) :
    some buffer =
      some ⟨fun place =>
        if str + i ≤ place ∧ place ≤ str + j then
          buffer.item (str + i + (str + j) - place)
        else buffer.item place⟩ := by
  refine congrArg some (Buffer.ext fun place => ?_)
  change buffer.item place = if _ then _ else _
  split
  · next between => exact congrArg buffer.item (by omega)
  · rfl

/-- The loop turns the characters between two places around. -/
theorem strrevLoop_eq
    (rounds i j : Nat) (buffer : Buffer Byte size)
    (enough : j ≤ i + rounds)
    (within : str + j < size) :
    strrevLoop str rounds i j buffer =
      some ⟨fun place =>
        if str + i ≤ place ∧ place ≤ str + j then
          buffer.item (str + i + (str + j) - place)
        else buffer.item place⟩ := by
  induction rounds generalizing i j buffer with
  | zero => exact mirror_of_crossed buffer (by omega)
  | succ rounds inductionHypothesis =>
      rw [strrevLoop]
      split
      · next ordered =>
          have first : str + i < size := by omega
          simp only [Buffer.store, if_pos first, if_pos within,
            Option.bind_some]
          rw [inductionHypothesis _ _ _ (by omega) (by omega)]
          refine congrArg some (Buffer.ext fun place => ?_)
          simp only [Function.update_apply]
          -- The two ends, the places between them, and the others.
          by_cases low : place = str + i
          · subst low
            rw [if_neg (by omega), if_neg (by omega), if_pos rfl,
              if_pos (by omega)]
            exact congrArg buffer.item (by omega)
          · by_cases high : place = str + j
            · subst high
              rw [if_neg (by omega), if_pos rfl, if_pos (by omega)]
              exact congrArg buffer.item (by omega)
            · by_cases between : str + i ≤ place ∧ place ≤ str + j
              · rw [if_pos (by omega), if_neg (by omega), if_neg (by omega),
                  if_pos between]
                exact congrArg buffer.item (by omega)
              · rw [if_neg (by omega), if_neg high, if_neg low,
                  if_neg between]
      · next crossed => exact mirror_of_crossed buffer (by omega)

/-- `strrev` turns around the text just stored. -/
theorem strrev_overlay
    (values : List Byte) (buffer : Buffer Byte size)
    (nonempty : values ≠ [])
    (fits : str + values.length ≤ size) :
    strrev str values.length (buffer.overlay str values) =
      some (buffer.overlay str values.reverse) := by
  have positive : 0 < values.length := List.length_pos_iff.mpr nonempty
  rw [strrev, strrevLoop_eq _ _ _ _ (by omega) (by omega)]
  refine congrArg some (Buffer.ext fun place => ?_)
  simp only [Buffer.overlay]
  by_cases below : place < str
  · rw [if_neg (by omega), if_pos below, if_pos below]
  · by_cases inside : place - str < values.length
    · have mirrored : values.length - 1 - (place - str) < values.length := by
        omega
      have place_eq : str + 0 + (str + (values.length - 1)) - place - str =
          values.length - 1 - (place - str) := by omega
      rw [if_pos (by omega), if_neg (by omega), if_neg below, place_eq,
        List.getElem?_reverse inside, List.getElem?_eq_getElem mirrored]
      rfl
    · rw [if_neg (by omega), if_neg below, if_neg below,
        List.getElem?_eq_none (by omega),
        List.getElem?_eq_none (by simpa using Nat.le_of_not_lt inside)]

theorem signed_tmod
    {sign : Int} {n base : Nat}
    (signed : sign = 1 ∨ sign = -1) :
    (sign * n).tmod base = sign * (n % base : Nat) := by
  rcases signed with rfl | rfl
  · rw [Int.one_mul, Int.one_mul, Int.ofNat_tmod]
  · rw [Int.neg_one_mul, Int.neg_one_mul, Int.neg_tmod, Int.ofNat_tmod]

theorem signed_tdiv
    {sign : Int} {n base : Nat}
    (signed : sign = 1 ∨ sign = -1) :
    (sign * n).tdiv base = sign * (n / base : Nat) := by
  rcases signed with rfl | rfl
  · rw [Int.one_mul, Int.one_mul, Int.ofNat_tdiv]
  · rw [Int.neg_one_mul, Int.neg_one_mul, Int.neg_tdiv, Int.ofNat_tdiv]

/-- The loop stores the digits, with the sign of the number on each. -/
theorem itoaLoop_eq
    {len sign : Int}
    (rounds n i : Nat) (buffer : Buffer Byte size)
    (large : 1 < base)
    (signed : sign = 1 ∨ sign = -1)
    (enough : (places base n).length ≤ rounds)
    (short : (i : Int) + (places base n).length ≤ len - 1) :
    itoaLoop str len base rounds (sign * n) i buffer =
      (buffer.storeAll (str + i)
        ((places base n).map fun digit : Nat => itoaDigit (sign * digit))).map
          fun buffer => (0, i + (places base n).length, buffer) := by
  induction rounds generalizing n i buffer with
  | zero =>
      rw [places_eq_cons large] at enough
      simp at enough
  | succ rounds inductionHypothesis =>
      rw [places_eq_cons large] at enough short ⊢
      rw [itoaLoop, List.map_cons, Buffer.storeAll_cons, Option.map_bind,
        signed_tmod signed, signed_tdiv signed]
      refine congrArg _ (funext fun middle => ?_)
      by_cases last : n / base = 0
      · simp [last]
      · have more : sign * ((n / base : Nat) : Int) ≠ 0 := by
          rcases signed with rfl | rfl <;> omega
        have some : 0 < (places base (n / base)).length := by
          rw [places_eq_cons large]
          exact Nat.succ_pos _
        simp only [if_neg last, List.length_cons] at enough short
        rw [if_pos ⟨more, by omega⟩,
          inductionHypothesis _ _ _ (by omega) (by omega)]
        simp only [if_neg last, Function.comp_apply, List.length_cons,
          Nat.add_assoc, Nat.add_comm 1]

/-- A text that is stored and turned around. -/
theorem storeAll_strrev
    (values : List Byte) (buffer : Buffer Byte size)
    (nonempty : values ≠ []) :
    (buffer.storeAll str values).bind (strrev str values.length) =
      buffer.storeAll str values.reverse := by
  rw [Buffer.storeAll_eq (Or.inr nonempty),
    Buffer.storeAll_eq (Or.inr (by simpa using nonempty)),
    List.length_reverse]
  split
  · next fits =>
      rw [Option.bind_some, strrev_overlay values buffer nonempty fits]
  · rfl

/-- The number that the loop of `itoa` starts with. -/
theorem itoa_sum (num : Word) :
    (if num.toInt < 0 then (-num).toInt else num.toInt) =
      (if num = BitVec.intMin 64 then -1 else 1) * (num.toInt.natAbs : Int) := by
  by_cases least : num = BitVec.intMin 64
  · rw [least]
    decide
  · rw [if_neg least]
    split
    · rw [BitVec.toInt_neg_of_ne_intMin least]
      omega
    · omega

/-- `itoa` stores the text, when the digits are fewer than `len`. -/
theorem itoa_eq
    {len : Int}
    (base : Nat) (num : Word) (buffer : Buffer Byte size)
    (large : 1 < base)
    (short : (places base num.toInt.natAbs).length < len) :
    itoa num str len base buffer =
      (buffer.storeAll str (itoaText base num)).map
        fun buffer => ((itoaText base num).length, buffer) := by
  have signed : (if num = BitVec.intMin 64 then -1 else 1 : Int) = 1 ∨
      (if num = BitVec.intMin 64 then -1 else 1 : Int) = -1 := by
    split
    · exact Or.inr rfl
    · exact Or.inl rfl
  rw [itoa, if_neg (by omega), itoa_sum,
    itoaLoop_eq _ _ 0 buffer large signed (by omega) (by omega)]
  set digits := (places base num.toInt.natAbs).map fun digit : Nat =>
    itoaDigit ((if num = BitVec.intMin 64 then -1 else 1) * digit)
  have length_eq : digits.length = (places base num.toInt.natAbs).length :=
    List.length_map _
  have text_eq : itoaText base num =
      (digits ++ if num.toInt < 0 then [ascii '-'] else []).reverse := by
    rw [List.reverse_append, itoaText]
    split <;> rfl
  have nonempty : digits ≠ [] := by
    rw [Ne, List.map_eq_nil_iff, places_eq_cons large]
    exact List.cons_ne_nil _ _
  rw [Option.bind_map, text_eq, List.length_reverse, ← length_eq]
  by_cases negative : num.toInt < 0
  · rw [if_pos negative, ← storeAll_strrev _ _ (by simp),
      Buffer.storeAll_append, Option.bind_assoc, Option.map_bind, Nat.add_zero]
    refine congrArg _ (funext fun middle => ?_)
    dsimp only [Function.comp_apply]
    rw [if_neg fun left => left.2 rfl, if_pos negative, Nat.zero_add,
      Buffer.storeAll_cons, Option.bind_assoc, Option.map_bind,
      List.length_append]
    rfl
  · rw [if_neg negative, List.append_nil,
      ← storeAll_strrev _ _ nonempty, Option.map_bind, Nat.add_zero]
    refine congrArg _ (funext fun middle => ?_)
    dsimp only [Function.comp_apply]
    rw [if_neg fun left => left.2 rfl, if_neg negative, Nat.zero_add]

/-- In decimal, 21 characters are always enough. -/
theorem itoa_decimal (num : Word) (str : Nat) (buffer : Buffer Byte size) :
    itoa num str 21 10 buffer =
      (buffer.storeAll str (itoaText 10 num)).map
        fun buffer => ((itoaText 10 num).length, buffer) := by
  have small : num.toInt.natAbs < 10 ^ 20 := by
    have low := BitVec.le_toInt num
    have high := BitVec.toInt_lt (x := num)
    omega
  have few := places_length_le (by decide) (by decide) small
  exact itoa_eq 10 num buffer (by decide) (by omega)

/-- The text is a sign and the numeral, `INT64_MIN` apart. -/
theorem itoaText_eq_append
    {num : Word}
    (base : Nat)
    (notLeast : num ≠ BitVec.intMin 64) :
    itoaText base num =
      (if num.toInt < 0 then [ascii '-'] else []) ++
        numeral base num.toInt.natAbs := by
  unfold itoaText numeral
  simp only [if_neg notLeast, Int.one_mul, itoaDigit_eq]

theorem itoaText_eq
    {num : Word}
    (notLeast : num ≠ BitVec.intMin 64) :
    itoaText 10 num = decimal num := by
  rw [itoaText_eq_append 10 notLeast, decimal]
  split <;> rfl

end Libc
end PivotOs
