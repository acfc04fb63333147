import PivotOs.Bitmap.Region

/-!
# The loops of `bm_free` and `bm_realloc`

`bm_free` walks over the blocks whose id equals that of the first block and
writes the id zero into each.  The write changes nothing, and since ids are
compared at their own columns the walk over a used block is one block long.
-/

namespace PivotOs
namespace Bitmap

/-! ## The walk of `bm_free` -/

/-- The walk leaves the memory alone and counts what `bm_realloc` counts. -/
theorem freeLoop_eq
    (b : Bitmap) (id : BitVec 8) (fuel block : Nat) (mem : Memory) :
    freeLoop b id fuel block mem = (mem, runLength mem b id fuel block) := by
  induction fuel generalizing block with
  | zero => rfl
  | succ fuel inductionHypothesis =>
      rw [freeLoop, runLength]
      split
      · simp only [setBm_zero, inductionHypothesis]
      · rfl

/-- What `bm_free` does to a pointer into the region. -/
theorem bmFree_of_inside
    (mem : Memory) {ptr : Nat} {b : Bitmap}
    (inside : ¬ b.outside ptr) :
    bmFree mem ptr b =
      (wrap (runLength mem b (getBm mem b.bm (b.blockOf ptr))
          (b.tblocks - b.blockOf ptr) (b.blockOf ptr) * b.bsize),
        mem,
        { b with
          ffa := if b.blockOf ptr < b.ffa then b.blockOf ptr else b.ffa }) := by
  rw [bmFree, if_neg inside]
  simp only [freeLoop_eq]

/-- The blocks of the walk share the id and lie in the region. -/
theorem runLength_spec
    (mem : Memory) (b : Bitmap) (id : BitVec 8) (fuel block offset : Nat)
    (walked : offset < runLength mem b id fuel block) :
    getBm mem b.bm (block + offset) = id ∧ block + offset < b.tblocks := by
  induction fuel generalizing block offset with
  | zero => simp [runLength] at walked
  | succ fuel inductionHypothesis =>
      rw [runLength] at walked
      split at walked
      · rename_i here
        cases offset with
        | zero => exact here
        | succ offset =>
            have next := inductionHypothesis (block + 1) offset (by omega)
            rwa [show block + 1 + offset = block + (offset + 1) by omega]
              at next
      · omega

theorem runLength_le
    (mem : Memory) (b : Bitmap) (id : BitVec 8) (fuel block : Nat)
    (inside : block ≤ b.tblocks) :
    block + runLength mem b id fuel block ≤ b.tblocks := by
  by_cases empty : runLength mem b id fuel block = 0
  · omega
  · have last := (runLength_spec mem b id fuel block _
      (Nat.sub_lt (Nat.pos_of_ne_zero empty) Nat.one_pos)).2
    omega

theorem runLength_pos
    (mem : Memory) (b : Bitmap) {block : Nat}
    (inside : block < b.tblocks) :
    0 < runLength mem b (getBm mem b.bm block) (b.tblocks - block) block := by
  obtain ⟨fuel, fuelEq⟩ := Nat.exists_eq_add_of_lt inside
  rw [show b.tblocks - block = fuel + 1 by omega, runLength,
    if_pos ⟨rfl, inside⟩]
  omega

/-- Neighbouring blocks never show the same id unless both are free. -/
theorem getBm_succ_ne
    {mem : Memory} {bm block : Nat}
    (used : ¬ Free mem bm block) :
    getBm mem bm (block + 1) ≠ getBm mem bm block := by
  intro equal
  apply used
  have columns : block % 4 ≠ (block + 1) % 4 := by omega
  exact mask_disjoint _ _ columns equal.symm

/-- The walk over a used block is one block long. -/
theorem runLength_of_used
    {mem : Memory} {b : Bitmap} {block : Nat}
    (inside : block < b.tblocks)
    (used : ¬ Free mem b.bm block) :
    runLength mem b (getBm mem b.bm block) (b.tblocks - block) block = 1 := by
  have positive := runLength_pos mem b inside
  by_contra different
  have second := (runLength_spec mem b (getBm mem b.bm block)
    (b.tblocks - block) block 1 (by omega)).1
  exact getBm_succ_ne used second

/-! ## `memcpy` -/

/-- A copy onto itself changes nothing. -/
theorem memcpy_self
    {mem result : Memory} {address len : Nat}
    (copied : mem.memcpy address address len = some result) :
    result = mem := by
  induction len generalizing mem address with
  | zero => simpa [Memory.memcpy] using copied.symm
  | succ len inductionHypothesis =>
      rw [Memory.memcpy] at copied
      split at copied
      · simp at copied
      · have same : mem.write address (mem address) = mem := by
          funext other
          by_cases here : other = address
          · rw [here, Memory.write_same]
          · rw [Memory.write_other _ _ here]
        rw [same] at copied
        exact inductionHypothesis copied

/-- A copy writes only its destination. -/
theorem memcpy_outside
    {mem result : Memory} {dest src len : Nat}
    (fits : dest + len < 2 ^ 64)
    (copied : mem.memcpy dest src len = some result)
    {address : Nat}
    (outside : address < dest ∨ dest + len ≤ address) :
    result address = mem address := by
  induction len generalizing mem dest src with
  | zero =>
      obtain rfl : mem = result := by simpa [Memory.memcpy] using copied
      rfl
  | succ len inductionHypothesis =>
      rw [Memory.memcpy] at copied
      split at copied
      · simp at copied
      · rw [wrap_of_lt (show dest + 1 < 2 ^ 64 by omega)] at copied
        have rest : result address = mem.write dest (mem src) address :=
          inductionHypothesis (show dest + 1 + len < 2 ^ 64 by omega) copied
            (by omega)
        rw [rest]
        exact Memory.write_other mem (mem src) (by omega)

/-- A copy to bytes that are not its source moves the source there. -/
theorem memcpy_inside
    {mem result : Memory} {dest src len offset : Nat}
    (destFits : dest + len < 2 ^ 64)
    (srcFits : src + len < 2 ^ 64)
    (apart : dest + len ≤ src ∨ src + len ≤ dest)
    (copied : mem.memcpy dest src len = some result)
    (below : offset < len) :
    result (dest + offset) = mem (src + offset) := by
  induction len generalizing mem dest src offset with
  | zero => omega
  | succ len inductionHypothesis =>
      rw [Memory.memcpy] at copied
      split at copied
      · simp at copied
      · rw [wrap_of_lt (show dest + 1 < 2 ^ 64 by omega),
          wrap_of_lt (show src + 1 < 2 ^ 64 by omega)] at copied
        cases offset with
        | zero =>
            -- The first byte is written once and then passed over.
            have kept : result dest = mem.write dest (mem src) dest :=
              memcpy_outside (by omega) copied (Or.inl (by omega))
            rwa [Memory.write_same] at kept
        | succ offset =>
            have later : result (dest + 1 + offset) =
                mem.write dest (mem src) (src + 1 + offset) :=
              inductionHypothesis (by omega) (by omega) (by omega) copied
                (by omega)
            rw [Memory.write_other _ _ (by omega)] at later
            rwa [show dest + (offset + 1) = dest + 1 + offset by omega,
              show src + (offset + 1) = src + 1 + offset by omega]

/-- A copy through the null pointer faults. -/
theorem memcpy_null
    (mem : Memory) (src : Nat) {len : Nat}
    (some_bytes : 0 < len) :
    mem.memcpy 0 src len = none := by
  obtain ⟨rest, rfl⟩ := Nat.exists_eq_succ_of_ne_zero some_bytes.ne'
  rw [Memory.memcpy, if_pos (by simp [pageSize])]

end Bitmap
end PivotOs
