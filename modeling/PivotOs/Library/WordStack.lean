import Mathlib.Data.BitVec
import Mathlib.Logic.Function.Basic
import Mathlib.Tactic.Ring

/-!
# Stacks of words

A stack grows down through a memory of words: a push moves the pointer down by
the size of a word and stores there, and words are read from the pointer up.
What was pushed is read back in the opposite order, as long as the stack does
not reach around the address space.
-/

universe u

namespace WordStack

variable {w : Nat} {α : Type u}

/-- The memory, by address, and the stack pointer. -/
structure State (w : Nat) (α : Type u) where
  /-- The word at an address. -/
  mem : BitVec w → α
  /-- The stack pointer. -/
  sp : BitVec w

/-- Push a word that takes `size` addresses. -/
def push (size : BitVec w) (s : State w α) (value : α) : State w α where
  mem := Function.update s.mem (s.sp - size) value
  sp := s.sp - size

/-- Push words, the first of the list first. -/
def pushAll (size : BitVec w) (values : List α) (s : State w α) :
    State w α :=
  values.foldl (push size) s

/-- The words from an address up. -/
def read (size : BitVec w) (mem : BitVec w → α) :
    (address : BitVec w) → (count : Nat) → List α
  | _, 0 => []
  | address, count + 1 => mem address :: read size mem (address + size) count

/-- The address of word `i` below the pointer. -/
def below (size sp : BitVec w) (i : Nat) : BitVec w :=
  sp - BitVec.ofNat w (i + 1) * size

/-- The addresses to which `count` words are pushed. -/
def Covers (size sp : BitVec w) (count : Nat) (address : BitVec w) : Prop :=
  ∃ i, i < count ∧ address = below size sp i

variable {size : BitVec w} {s : State w α} {values : List α} {value : α}

@[simp] theorem pushAll_nil : pushAll size [] s = s := rfl

@[simp] theorem pushAll_cons :
    pushAll size (value :: values) s = pushAll size values (push size s value) :=
  rfl

theorem pushAll_append (values later : List α) :
    pushAll size (values ++ later) s =
      pushAll size later (pushAll size values s) :=
  List.foldl_append

theorem pushAll_concat :
    pushAll size (values ++ [value]) s = push size (pushAll size values s) value :=
  pushAll_append values [value]

@[simp] theorem length_read
    (mem : BitVec w → α) (address : BitVec w) (count : Nat) :
    (read size mem address count).length = count := by
  induction count generalizing address with
  | zero => rfl
  | succ count inductionHypothesis => rw [read, List.length_cons,
      inductionHypothesis]

theorem ofNat_succ (i : Nat) :
    BitVec.ofNat w (i + 1) = BitVec.ofNat w i + 1 := by
  apply BitVec.eq_of_toNat_eq
  simp

/-- Word `i` of those read. -/
theorem getElem_read
    (mem : BitVec w → α) (address : BitVec w)
    {count i : Nat}
    (inside : i < (read size mem address count).length) :
    (read size mem address count)[i] =
      mem (address + BitVec.ofNat w i * size) := by
  induction count generalizing address i with
  | zero => exact absurd inside (Nat.not_lt_zero i)
  | succ count inductionHypothesis =>
      cases i with
      | zero => simp [read]
      | succ i =>
          simp only [read, List.getElem_cons_succ]
          rw [inductionHypothesis, ofNat_succ]
          congr 1
          ring

/-- A store elsewhere is not read. -/
theorem read_update_of_ne
    {mem : BitVec w → α} {place : BitVec w}
    (address : BitVec w) (count : Nat)
    (apart : ∀ i, i < count → address + BitVec.ofNat w i * size ≠ place) :
    read size (Function.update mem place value) address count =
      read size mem address count := by
  refine List.ext_getElem (by simp) fun i inside _ => ?_
  rw [getElem_read, getElem_read, Function.update_of_ne]
  exact apart i (by simpa using inside)

theorem sp_pushAll (values : List α) :
    (pushAll size values s).sp =
      s.sp - BitVec.ofNat w values.length * size := by
  induction values generalizing s with
  | nil => simp
  | cons value values inductionHypothesis =>
      rw [pushAll_cons, inductionHypothesis, push, List.length_cons, ofNat_succ]
      ring

/-- What was pushed is read back in the opposite order. -/
theorem read_pushAll
    (positive : 0 < size.toNat)
    (fits : size.toNat * values.length ≤ 2 ^ w) :
    read size (pushAll size values s).mem (pushAll size values s).sp
        values.length = values.reverse := by
  induction values using List.reverseRecOn with
  | nil => rfl
  | append_singleton values value inductionHypothesis =>
      rw [List.length_append, List.length_singleton, Nat.mul_succ] at fits
      rw [List.length_append, List.length_singleton]
      have earlier := inductionHypothesis (by omega)
      rw [pushAll_concat, List.reverse_append, List.reverse_singleton]
      simp only [push, read, Function.update_self, sub_add_cancel,
        List.singleton_append, List.cons.injEq, true_and]
      rw [read_update_of_ne, earlier]
      -- The words pushed earlier lie above the new one.
      intro i inside same
      have zero : BitVec.ofNat w (i + 1) * size = 0 := by
        rw [ofNat_succ]
        have shifted := congrArg (fun address =>
          address - (pushAll size values s).sp + size) same
        ring_nf at shifted ⊢
        exact shifted
      have bound : size.toNat * (i + 1) ≤ size.toNat * values.length :=
        Nat.mul_le_mul_left _ inside
      have index : i + 1 ≤ size.toNat * (i + 1) :=
        Nat.le_mul_of_pos_left _ positive
      have small := congrArg BitVec.toNat zero
      rw [BitVec.toNat_mul, BitVec.toNat_ofNat,
        Nat.mod_eq_of_lt (by omega : i + 1 < 2 ^ w), Nat.mul_comm,
        Nat.mod_eq_of_lt (by omega)] at small
      have some_index : 0 < size.toNat * (i + 1) :=
        Nat.mul_pos positive (Nat.succ_pos i)
      exact absurd small (Nat.ne_of_gt some_index)

/-- Nothing else is written. -/
theorem mem_pushAll_of_not_covers
    {address : BitVec w}
    (outside : ¬ Covers size s.sp values.length address) :
    (pushAll size values s).mem address = s.mem address := by
  induction values using List.reverseRecOn with
  | nil => rfl
  | append_singleton values value inductionHypothesis =>
      rw [List.length_append, List.length_singleton] at outside
      have last : address ≠ (pushAll size values s).sp - size := by
        rintro rfl
        refine outside ⟨values.length, Nat.lt_succ_self _, ?_⟩
        rw [below, sp_pushAll, ofNat_succ]
        ring
      rw [pushAll_concat, push]
      refine (Function.update_of_ne last _ _).trans (inductionHypothesis ?_)
      rintro ⟨i, inside, same⟩
      exact outside ⟨i, inside.trans (Nat.lt_succ_self _), same⟩

end WordStack
