import PivotOs.Bitmap.Defs

/-!
# Packed ids

How `set_bm` and `get_bm` act on one another.  `set_bm` only ever sets bits, so
an id can be given to a free block but not taken back, and `get_bm` returns the
id at the block's own bit position, so the ids of neighbouring blocks are equal
only when both are zero.
-/

namespace PivotOs
namespace Bitmap

/-- A block whose id is zero. -/
def Free (mem : Memory) (bm block : Nat) : Prop := getBm mem bm block = 0#8

instance (mem : Memory) (bm block : Nat) : Decidable (Free mem bm block) :=
  inferInstanceAs (Decidable (_ = _))

/-! ## Masks -/

theorem column_cases (block : Nat) :
    block % 4 = 0 ∧ column block = 0 ∨ block % 4 = 1 ∧ column block = 2 ∨
      block % 4 = 2 ∧ column block = 4 ∨ block % 4 = 3 ∧ column block = 6 := by
  simp only [column, blocksPerInt, bitsPerId]
  omega

/-- An id written at its own column is read back whole. -/
theorem id_and_mask_same (id : BitVec 8) (block : Nat) :
    (id &&& idMask) <<< column block &&&
        idMask <<< column block =
      (id &&& idMask) <<< column block := by
  rcases column_cases block with ⟨-, eq⟩ | ⟨-, eq⟩ | ⟨-, eq⟩ | ⟨-, eq⟩ <;>
    rw [eq] <;> revert id <;> decide

/-- An id written at one column is invisible at another. -/
theorem id_and_mask_other
    (id : BitVec 8)
    {block other : Nat}
    (different : block % 4 ≠ other % 4) :
    (id &&& idMask) <<< column block &&&
        idMask <<< column other = 0#8 := by
  rcases column_cases block with ⟨mod, eq⟩ | ⟨mod, eq⟩ | ⟨mod, eq⟩ | ⟨mod, eq⟩ <;>
    rcases column_cases other with
      ⟨mod', eq'⟩ | ⟨mod', eq'⟩ | ⟨mod', eq'⟩ | ⟨mod', eq'⟩ <;>
    first
      | omega
      | (rw [eq, eq']; revert id; decide)

/-- Values read at different columns agree only when both are zero. -/
theorem mask_disjoint
    (left right : BitVec 8)
    {block other : Nat}
    (different : block % 4 ≠ other % 4)
    (equal : left &&& idMask <<< column block =
      right &&& idMask <<< column other) :
    left &&& idMask <<< column block = 0#8 := by
  have masks :
      idMask <<< column other &&&
        idMask <<< column block = 0#8 := by
    simpa using id_and_mask_other idMask (Ne.symm different)
  calc
    left &&& idMask <<< column block =
        (left &&& idMask <<< column block) &&&
          idMask <<< column block := by
      rw [BitVec.and_assoc, BitVec.and_self]
    _ = 0#8 := by
      rw [equal, BitVec.and_assoc, masks, BitVec.and_zero]

/-! ## Reading after a write -/

theorem getBm_setBm_same
    (mem : Memory) (bm block : Nat) (id : BitVec 8) :
    getBm (setBm mem bm block id) bm block =
      getBm mem bm block ||| (id &&& idMask) <<< column block := by
  simp only [getBm, setBm, Memory.write_same, BitVec.and_or_distrib_right,
    id_and_mask_same]

theorem getBm_setBm_other
    (mem : Memory) (id : BitVec 8)
    {bm block other : Nat}
    (different : other ≠ block)
    (fits : bm + block / 4 < 2 ^ 64)
    (otherFits : bm + other / 4 < 2 ^ 64) :
    getBm (setBm mem bm block id) bm other = getBm mem bm other := by
  unfold getBm setBm
  simp only [blocksPerInt_eq, wrap_of_lt fits, wrap_of_lt otherFits]
  by_cases sameRow : other / 4 = block / 4
  · have columns : block % 4 ≠ other % 4 := by omega
    rw [sameRow, Memory.write_same, BitVec.and_or_distrib_right,
      id_and_mask_other id columns, BitVec.or_zero]
  · rw [Memory.write_other _ _ (by omega)]

/-- Writing the id zero is no change: `set_bm` only ors bits in. -/
@[simp] theorem setBm_zero (mem : Memory) (bm block : Nat) :
    setBm mem bm block 0#8 = mem := by
  funext address
  by_cases here : address = wrap (bm + block / blocksPerInt)
  · subst here
    simp [setBm]
  · simp [setBm, Memory.write_other _ _ here]

@[simp] theorem setRun_zero (mem : Memory) (bm start count : Nat) :
    setRun mem bm start 0#8 count = mem := by
  induction count with
  | zero => rfl
  | succ count inductionHypothesis =>
      rw [setRun, inductionHypothesis, setBm_zero]

/-- Blocks outside the written run keep their ids. -/
theorem getBm_setRun_outside
    (mem : Memory) (id : BitVec 8)
    {bm start count other : Nat}
    (fits : bm + (start + count) / 4 < 2 ^ 64)
    (otherFits : bm + other / 4 < 2 ^ 64)
    (outside : other < start ∨ start + count ≤ other) :
    getBm (setRun mem bm start id count) bm other = getBm mem bm other := by
  induction count with
  | zero => rfl
  | succ count inductionHypothesis =>
      rw [setRun, getBm_setBm_other _ _ (by omega) (by omega) otherFits]
      exact inductionHypothesis (by omega) (by omega)

/-- A free block of the written run gets the id, at its own column. -/
theorem getBm_setRun_inside
    (mem : Memory) (id : BitVec 8)
    {bm start count offset : Nat}
    (fits : bm + (start + count) / 4 < 2 ^ 64)
    (inside : offset < count) :
    getBm (setRun mem bm start id count) bm (start + offset) =
      getBm mem bm (start + offset) |||
        (id &&& idMask) <<< column (start + offset) := by
  induction count with
  | zero => omega
  | succ count inductionHypothesis =>
      rw [setRun]
      by_cases last : offset = count
      · subst last
        rw [getBm_setBm_same,
          getBm_setRun_outside _ _ (by omega) (by omega) (by omega)]
      · rw [getBm_setBm_other _ _ (by omega) (by omega) (by omega)]
        exact inductionHypothesis (by omega) (by omega)

/-- Bytes away from the bitmap rows are not written. -/
theorem setRun_apply_of_outside
    (mem : Memory) (id : BitVec 8)
    {bm start count address : Nat}
    (fits : bm + (start + count) / 4 < 2 ^ 64)
    (outside : ∀ block, start ≤ block → block < start + count →
      address ≠ bm + block / 4) :
    setRun mem bm start id count address = mem address := by
  induction count with
  | zero => rfl
  | succ count inductionHypothesis =>
      have rowFits : bm + (start + count) / 4 < 2 ^ 64 := by omega
      rw [setRun, setBm, blocksPerInt_eq, wrap_of_lt rowFits,
        Memory.write_other _ _ (outside (start + count) (by omega) (by omega))]
      exact inductionHypothesis (by omega)
        fun block after before => outside block after (by omega)

/-! ## Chosen ids -/

/-- The chosen id is 1, 2 or 3, and neither neighbour's value. -/
theorem bmUniqueIdFrom_one (a b : BitVec 8) (fuel : Nat) :
    (bmUniqueIdFrom a b (fuel + 3) 1#8 = 1#8 ∨
      bmUniqueIdFrom a b (fuel + 3) 1#8 = 2#8 ∨
      bmUniqueIdFrom a b (fuel + 3) 1#8 = 3#8) := by
  simp only [bmUniqueIdFrom, BitVec.reduceAdd]
  by_cases one : 1#8 = a ∨ 1#8 = b
  · by_cases two : 2#8 = a ∨ 2#8 = b
    · have three : ¬ (3#8 = a ∨ 3#8 = b) := by
        rcases one with rfl | rfl <;> rcases two with two | two <;>
          first
            | exact absurd two (by decide)
            | (subst two; decide)
      simp [one, two, three]
    · simp [one, two]
  · simp [one]

theorem bmUniqueId_visible (a b : BitVec 8) (block : Nat) :
    (bmUniqueId a b &&& idMask) <<< column block ≠ 0#8 := by
  have chosen := bmUniqueIdFrom_one a b 253
  change bmUniqueId a b = _ ∨ bmUniqueId a b = _ ∨ bmUniqueId a b = _ at chosen
  rcases chosen with eq | eq | eq <;> rw [eq] <;>
    rcases column_cases block with ⟨-, col⟩ | ⟨-, col⟩ | ⟨-, col⟩ | ⟨-, col⟩ <;>
    rw [col] <;> decide

end Bitmap
end PivotOs
