import PivotOs.Word
import Mathlib.Data.List.Basic

/-!
# The multiple APIC description table

The table is a header followed by entries, each with its type in the first byte
and its length in the second.  `acpi/madt.c` finds the entries of one type by
walking the bytes, and counts them by asking for one after another.  The index
it asks for is a single byte.
-/

namespace PivotOs

/-- `madt_t`: the length from the header, and the bytes from the header on. -/
structure Madt where
  /-- `header.length`. -/
  length : BitVec 32
  /-- The byte at an offset. -/
  byte : Nat → BitVec 8

namespace Madt

/-- `MADT_LAPIC`. -/
def lapicType : BitVec 8 := 0#8

/-- `sizeof(madt_t)`: the entries start behind it. -/
def headerSize : Nat := 44

/-- The loop of `get_madt_item` from an entry on.  Without fuel there is no
answer. -/
def getMadtItemFrom (table : Madt) (searchItem count : BitVec 8) :
    Nat → BitVec 8 → Nat → Option (Option Nat)
  | 0, _, _ => none
  | fuel + 1, counter, item =>
      if item < table.length.toNat then
        let next := item + (table.byte (item + 1)).toNat
        if table.byte item = searchItem then
          if count = counter then some (some item)
          else getMadtItemFrom table searchItem count fuel (counter + 1#8) next
        else getMadtItemFrom table searchItem count fuel counter next
      else some none

/-- `get_madt_item`: the offset of an entry, or `NULL`.  A walk that is longer
than this has met an entry of length zero and of another type, and never
ends. -/
def getMadtItem (table : Madt) (searchItem count : BitVec 8) :
    Option (Option Nat) :=
  getMadtItemFrom table searchItem count (table.length.toNat + 257) 0#8
    headerSize

/-- The loop of `get_madt_count`. -/
def getMadtCountFrom (table : Madt) (searchItem : BitVec 8) :
    Nat → Nat → Option Nat
  | 0, _ => none
  | fuel + 1, count =>
      (getMadtItem table searchItem (BitVec.ofNat 8 count)).bind fun item =>
        match item with
        | none => some count
        | some _ => getMadtCountFrom table searchItem fuel (count + 1)

/-- `get_madt_count`.  When 256 entries have been found the index starts over,
and the count never ends. -/
def getMadtCount (table : Madt) (searchItem : BitVec 8) : Option Nat :=
  getMadtCountFrom table searchItem 257 0

/-! ## Local APIC entries -/

/-- What a `lapic_t` says about a processor. -/
structure LapicEntry where
  /-- `id`. -/
  id : BitVec 8
  /-- `flags`. -/
  flags : BitVec 32
  deriving DecidableEq

/-- The `lapic_t` at an offset. -/
def lapicAt (table : Madt) (item : Nat) : LapicEntry where
  id := table.byte (item + 3)
  flags := table.byte (item + 7) ++ table.byte (item + 6) ++
    table.byte (item + 5) ++ table.byte (item + 4)

/-- The processor may be used. -/
def LapicEntry.Enabled (entry : LapicEntry) : Prop :=
  entry.flags.getLsbD 0 = true

instance (entry : LapicEntry) : Decidable entry.Enabled :=
  inferInstanceAs (Decidable (_ = _))

/-! ## Well-formed tables -/

/-- The entries at the given offsets fill the table from an offset on. -/
inductive Tiled (table : Madt) : Nat → List Nat → Prop
  | nil : Tiled table table.length.toNat []
  | cons {item : Nat} {items : List Nat}
      (long : 2 ≤ (table.byte (item + 1)).toNat)
      (rest : Tiled table (item + (table.byte (item + 1)).toNat) items) :
      Tiled table item (item :: items)

/-- The entries of one type. -/
def ofType (table : Madt) (searchItem : BitVec 8) (items : List Nat) :
    List Nat :=
  items.filter fun item => table.byte item = searchItem

/-- The local APIC entries. -/
def lapics (table : Madt) (items : List Nat) : List LapicEntry :=
  (table.ofType lapicType items).map table.lapicAt

variable {table : Madt} {searchItem count : BitVec 8}

theorem Tiled.bound
    {item : Nat} {items : List Nat}
    (tiled : Tiled table item items) :
    item + 2 * items.length ≤ table.length.toNat := by
  induction tiled with
  | nil => simp
  | cons long rest inductionHypothesis =>
      rw [List.length_cons]
      omega

/-- The walk finds the entry of the given index. -/
theorem getMadtItemFrom_eq
    {item fuel : Nat} {items : List Nat} {counter : BitVec 8}
    (tiled : Tiled table item items)
    (enough : items.length < fuel)
    (notBehind : counter.toNat ≤ count.toNat) :
    table.getMadtItemFrom searchItem count fuel counter item =
      some (table.ofType searchItem items)[count.toNat - counter.toNat]? := by
  induction tiled generalizing fuel counter with
  | nil =>
      obtain ⟨fuel, rfl⟩ : ∃ less, fuel = less + 1 :=
        Nat.exists_eq_succ_of_ne_zero (by omega)
      simp [getMadtItemFrom, ofType]
  | @cons item items long rest inductionHypothesis =>
      obtain ⟨fuel, rfl⟩ : ∃ less, fuel = less + 1 :=
        Nat.exists_eq_succ_of_ne_zero (by omega)
      have inside : item < table.length.toNat := by
        have bound := rest.bound
        omega
      have enough : items.length < fuel := by simpa using enough
      simp only [getMadtItemFrom, if_pos inside]
      by_cases matching : table.byte item = searchItem
      · rw [if_pos matching]
        have selected : table.ofType searchItem (item :: items) =
            item :: table.ofType searchItem items := by
          simp [ofType, matching]
        rw [selected]
        by_cases here : count = counter
        · simp [here]
        · -- The index is not reached, so the counter does not wrap.
          have before : counter.toNat < count.toNat :=
            lt_of_le_of_ne notBehind fun same =>
              here (BitVec.eq_of_toNat_eq same.symm)
          have counted : (counter + 1#8).toNat = counter.toNat + 1 := by
            have small := count.isLt
            rw [BitVec.toNat_add, BitVec.toNat_ofNat]
            omega
          rw [if_neg here,
            inductionHypothesis enough (by rw [counted]; exact before), counted]
          have position : count.toNat - counter.toNat =
              count.toNat - (counter.toNat + 1) + 1 := by omega
          rw [position, List.getElem?_cons_succ]
      · have skipped : table.ofType searchItem (item :: items) =
            table.ofType searchItem items := by
          simp [ofType, matching]
        rw [if_neg matching, skipped]
        exact inductionHypothesis enough notBehind

theorem getMadtItem_eq
    {items : List Nat}
    (tiled : Tiled table headerSize items) :
    table.getMadtItem searchItem count =
      some (table.ofType searchItem items)[count.toNat]? := by
  have enough : items.length < table.length.toNat + 257 := by
    have bound := tiled.bound
    omega
  rw [getMadtItem, getMadtItemFrom_eq tiled enough (Nat.zero_le _)]
  rfl

theorem getMadtCountFrom_eq
    {items : List Nat} {fuel from_ : Nat}
    (tiled : Tiled table headerSize items)
    (few : (table.ofType searchItem items).length < 256)
    (notBehind : from_ ≤ (table.ofType searchItem items).length)
    (enough : (table.ofType searchItem items).length < from_ + fuel) :
    table.getMadtCountFrom searchItem fuel from_ =
      some (table.ofType searchItem items).length := by
  induction fuel generalizing from_ with
  | zero => omega
  | succ fuel inductionHypothesis =>
      have narrow : (BitVec.ofNat 8 from_).toNat = from_ := by
        rw [BitVec.toNat_ofNat]
        omega
      rw [getMadtCountFrom, getMadtItem_eq tiled, narrow, Option.bind_some]
      cases Nat.lt_or_eq_of_le notBehind with
      | inl before =>
          rw [List.getElem?_eq_getElem before]
          exact inductionHypothesis before (by omega)
      | inr reached =>
          rw [List.getElem?_eq_none (Nat.le_of_eq reached.symm), reached]

/-- Fewer than 256 entries of a type are counted right. -/
theorem getMadtCount_eq
    {items : List Nat}
    (tiled : Tiled table headerSize items)
    (few : (table.ofType searchItem items).length < 256) :
    table.getMadtCount searchItem =
      some (table.ofType searchItem items).length :=
  getMadtCountFrom_eq tiled few (Nat.zero_le _) (by omega)

end Madt
end PivotOs
