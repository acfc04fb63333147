import Mathlib.Algebra.BigOperators.Group.List.Basic
import Mathlib.Data.BitVec
import Mathlib.Data.List.Flatten
import Mathlib.Logic.Function.Basic

/-!
# Bytes in a memory

What a memory holds at an offset, integers with their lowest byte first, and the
sum of bytes that a format checks.
-/

namespace ByteImage

variable {byte : Nat → BitVec 8} {offset : Nat}

/-- The bytes are found from the offset on. -/
def Stored (byte : Nat → BitVec 8) (offset : Nat) (bytes : List (BitVec 8)) :
    Prop :=
  ∀ i (inside : i < bytes.length), byte (offset + i) = bytes[i]

instance (byte : Nat → BitVec 8) (offset : Nat) (bytes : List (BitVec 8)) :
    Decidable (Stored byte offset bytes) :=
  inferInstanceAs (Decidable (∀ i (_ : i < bytes.length), _))

@[simp] theorem stored_nil : Stored byte offset [] :=
  fun _ inside => absurd inside (Nat.not_lt_zero _)

theorem stored_cons {first : BitVec 8} {bytes : List (BitVec 8)} :
    Stored byte offset (first :: bytes) ↔
      byte offset = first ∧ Stored byte (offset + 1) bytes := by
  constructor
  · intro stored
    refine ⟨stored 0 (Nat.succ_pos _), fun i inside => ?_⟩
    rw [Nat.add_assoc, Nat.add_comm 1 i]
    exact stored (i + 1) (Nat.succ_lt_succ inside)
  · rintro ⟨head, rest⟩ (_ | i) inside
    · exact head
    · rw [← Nat.add_assoc, Nat.add_right_comm]
      exact rest i (Nat.lt_of_succ_lt_succ inside)

theorem stored_append {left right : List (BitVec 8)} :
    Stored byte offset (left ++ right) ↔
      Stored byte offset left ∧ Stored byte (offset + left.length) right := by
  induction left generalizing offset with
  | nil => simp
  | cons first left inductionHypothesis =>
      rw [List.cons_append, stored_cons, stored_cons, inductionHypothesis,
        and_assoc, List.length_cons, Nat.add_assoc, Nat.add_comm 1]

/-- With one byte put right, the others are as they were. -/
theorem Stored.repaired
    {bytes : List (BitVec 8)} {i : Nat} {other : BitVec 8}
    (inside : i < bytes.length)
    (stored : Stored byte 0 (bytes.set i other)) :
    Stored (Function.update byte i bytes[i]) 0 bytes := by
  intro k below
  have found := stored k (by rwa [List.length_set])
  rw [Nat.zero_add] at found ⊢
  by_cases here : k = i
  · subst here
    rw [Function.update_self]
  · rw [Function.update_of_ne here, found,
      List.getElem_set_ne (Ne.symm here)]

/-! ## Integers -/

/-- An integer of `width` bytes, lowest byte first. -/
def littleEndian : (width value : Nat) → List (BitVec 8)
  | 0, _ => []
  | width + 1, value =>
      BitVec.ofNat 8 value :: littleEndian width (value / 256)

@[simp] theorem littleEndian_length (width value : Nat) :
    (littleEndian width value).length = width := by
  induction width generalizing value with
  | zero => rfl
  | succ width inductionHypothesis =>
      rw [littleEndian, List.length_cons, inductionHypothesis]

/-- The integer that is read from the offset on. -/
def field (byte : Nat → BitVec 8) (offset : Nat) : (width : Nat) → Nat
  | 0 => 0
  | width + 1 => (byte offset).toNat + 256 * field byte (offset + 1) width

/-- What was written is read. -/
theorem field_of_stored
    {width value : Nat}
    (small : value < 256 ^ width)
    (stored : Stored byte offset (littleEndian width value)) :
    field byte offset width = value := by
  induction width generalizing offset value with
  | zero =>
      rw [pow_zero] at small
      rw [field]
      omega
  | succ width inductionHypothesis =>
      obtain ⟨head, rest⟩ := stored_cons.mp stored
      have less : value / 256 < 256 ^ width :=
        Nat.div_lt_of_lt_mul (by rwa [pow_succ, mul_comm] at small)
      rw [field, head, inductionHypothesis less rest, BitVec.toNat_ofNat]
      omega

/-- Integers of one width, one after another. -/
theorem stored_flatMap_littleEndian
    {width : Nat} {values : List Nat}
    (stored : Stored byte offset (values.flatMap (littleEndian width)))
    {i : Nat}
    (inside : i < values.length) :
    Stored byte (offset + width * i) (littleEndian width values[i]) := by
  induction values generalizing offset i with
  | nil => exact absurd inside (Nat.not_lt_zero _)
  | cons value values inductionHypothesis =>
      rw [List.flatMap_cons] at stored
      obtain ⟨head, rest⟩ := stored_append.mp stored
      cases i with
      | zero => exact head
      | succ i =>
          have later := inductionHypothesis rest (Nat.lt_of_succ_lt_succ inside)
          rw [littleEndian_length, Nat.add_assoc, Nat.add_comm width,
            ← Nat.mul_succ] at later
          exact later

/-! ## Sums of bytes -/

/-- The sum from the offset on. -/
def sumFrom (byte : Nat → BitVec 8) : (length : Nat) → BitVec 8
  | 0 => 0#8
  | i + 1 => sumFrom byte i + byte i

theorem sumFrom_of_stored
    {bytes : List (BitVec 8)}
    (stored : Stored byte 0 bytes) :
    sumFrom byte bytes.length = bytes.sum := by
  induction bytes using List.reverseRecOn with
  | nil => rfl
  | append_singleton bytes last inductionHypothesis =>
      obtain ⟨before, after⟩ := stored_append.mp stored
      have found := (stored_cons.mp after).1
      rw [Nat.zero_add] at found
      rw [List.length_append, List.length_singleton, sumFrom,
        inductionHypothesis before, found, List.sum_append, List.sum_singleton]

/-- Another byte in one place makes another sum. -/
theorem sum_set_ne
    {bytes : List (BitVec 8)} {i : Nat} {other : BitVec 8}
    (inside : i < bytes.length)
    (different : other ≠ bytes[i]) :
    (bytes.set i other).sum ≠ bytes.sum := by
  induction bytes generalizing i with
  | nil => exact absurd inside (Nat.not_lt_zero _)
  | cons first bytes inductionHypothesis =>
      cases i with
      | zero =>
          rw [List.set_cons_zero, List.sum_cons, List.sum_cons]
          exact fun same => different (add_right_cancel same)
      | succ i =>
          rw [List.set_cons_succ, List.sum_cons, List.sum_cons]
          exact fun same => inductionHypothesis (Nat.lt_of_succ_lt_succ inside)
            different (add_left_cancel same)

end ByteImage
