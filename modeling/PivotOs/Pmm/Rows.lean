import PivotOs.Pmm.Usable

/-!
# Rows of single bits and of areas

Which rows the functions on single bits and on areas access, for any address.
`pmm_set_bit` leaves out the frames above `mem_pages`, but not frame `mem_pages`
itself, which has a row of its own when `mem_pages` is a multiple of 64.
`pmm_clear_bit` and `pmm_check_bit` leave none out.
-/

namespace PivotOs
namespace Pmm

variable {m : Pmm} {memPages : Nat}

/-- `pmm_check_bit`. -/
def pmmCheckBit (m : Pmm) (address : Word) : Bool :=
  let frame := frameOf address
  m.bitmap (frame / bitmapRowBits) &&& 1#64 <<< (frame % bitmapRowBits) = 0#64

/-- The row that `pmm_check_bit` reads. -/
def checkBitRows (address : Word) : List Nat :=
  [frameOf address / bitmapRowBits]

/-- The rows that `pmm_set_area` accesses, newest first. -/
def setAreaRows (m : Pmm) (start : Word) : Nat → List Nat
  | 0 => []
  | i + 1 =>
      (m.pmmSetArea start i).setBitRows (pageAddress start i) ++
        setAreaRows m start i

/-- A call of one of the functions on bits. -/
inductive BitCall where
  /-- `pmm_set_bit`. -/
  | setBit (address : Word)
  /-- `pmm_clear_bit`. -/
  | clearBit (address : Word)
  /-- `pmm_check_bit`. -/
  | checkBit (address : Word)
  /-- `pmm_set_area`. -/
  | setArea (start : Word) (numPages : Nat)
  /-- `pmm_clear_area`. -/
  | clearArea (start : Word) (numPages : Nat)

namespace BitCall

/-- The bitmap after a call. -/
def run (m : Pmm) : BitCall → Pmm
  | setBit address => m.pmmSetBit address
  | clearBit address => m.pmmClearBit address
  | checkBit _ => m
  | setArea start numPages => m.pmmSetArea start numPages
  | clearArea start numPages => m.pmmClearArea start numPages

/-- The rows that a call accesses. -/
def rows (m : Pmm) : BitCall → List Nat
  | setBit address => m.setBitRows address
  | clearBit address => clearBitRows address
  | checkBit address => checkBitRows address
  | setArea start numPages => m.setAreaRows start numPages
  | clearArea start numPages => clearAreaRows start numPages

end BitCall

/-- A call accesses the rows of the bitmap only. -/
def RowsInside (m : Pmm) (call : BitCall) : Prop :=
  ∀ row ∈ call.rows m, row < m.bitmapEntries

/-! ## When the rows are those of the bitmap -/

/-- The number of frames that have a bit: `mem_pages`, rounded up to whole
rows. -/
def rowFrames (memPages : Nat) : Nat := (memPages + 63) / 64 * 64

/-- The address is not that of frame `mem_pages`, or the last row has a bit
left for it. -/
def Settable (memPages : Nat) (address : Word) : Prop :=
  address = 0#64 ∨ frameOf address ≠ memPages ∨ ¬ 64 ∣ memPages

/-- The address is null, or below the end of the last row. -/
def Clearable (memPages : Nat) (address : Word) : Prop :=
  address = 0#64 ∨ frameOf address < rowFrames memPages

/-- The addresses that a call may be made with. -/
def BitCall.Proper (memPages : Nat) : BitCall → Prop
  | setBit address => Settable memPages address
  | clearBit address => Clearable memPages address
  | checkBit address => frameOf address < rowFrames memPages
  | setArea start numPages =>
      ∀ i, i < numPages → Settable memPages (pageAddress start i)
  | clearArea start numPages =>
      ∀ i, i < numPages → Clearable memPages (pageAddress start i)

theorem setBitRows_pmmSetArea (start address : Word) (count : Nat) :
    (m.pmmSetArea start count).setBitRows address = m.setBitRows address := by
  rw [setBitRows, (Marked.pmmSetArea m start count).memPages_eq, setBitRows]

theorem pmmSetArea_bitmap
    {start : Word} {count row : Nat}
    (apart : row ∉ m.setAreaRows start count) :
    (m.pmmSetArea start count).bitmap row = m.bitmap row := by
  induction count with
  | zero => rfl
  | succ count inductionHypothesis =>
      rw [setAreaRows, List.mem_append, not_or] at apart
      rw [pmmSetArea, pmmSetBit_bitmap apart.1, inductionHypothesis apart.2]

/-- A call changes only rows that it accesses. -/
theorem BitCall.run_bitmap
    {call : BitCall} {row : Nat}
    (apart : row ∉ call.rows m) :
    (call.run m).bitmap row = m.bitmap row := by
  cases call with
  | setBit address => exact pmmSetBit_bitmap apart
  | clearBit address => exact pmmClearBit_bitmap apart
  | checkBit address => rfl
  | setArea start numPages => exact pmmSetArea_bitmap apart
  | clearArea start numPages => exact pmmClearArea_bitmap apart

/-- The answer of `pmm_check_bit` depends on the row that it reads alone. -/
theorem pmmCheckBit_congr
    {other : Pmm} {address : Word}
    (same : ∀ row ∈ checkBitRows address, m.bitmap row = other.bitmap row) :
    m.pmmCheckBit address = other.pmmCheckBit address := by
  rw [pmmCheckBit, same _ (List.mem_singleton.mpr rfl), pmmCheckBit]

/-- A loop accesses what its rounds access. -/
theorem forall_mem_rounds
    {rows : Nat → List Nat} {round : Nat → List Nat} {count : Nat}
    {P : Nat → Prop}
    (empty : rows 0 = [])
    (next : ∀ i, rows (i + 1) = round i ++ rows i) :
    (∀ row ∈ rows count, P row) ↔
      ∀ i, i < count → ∀ row ∈ round i, P row := by
  induction count with
  | zero => simp [empty]
  | succ count inductionHypothesis =>
      rw [next, List.forall_mem_append, inductionHypothesis]
      constructor
      · rintro ⟨last, earlier⟩ i below
        rcases Nat.lt_succ_iff_lt_or_eq.mp below with before | rfl
        · exact earlier i before
        · exact last
      · intro all
        exact ⟨all count count.lt_succ_self, fun i below =>
          all i (Nat.lt_succ_of_lt below)⟩

section Entries

variable (entries : m.bitmapEntries = (m.memPages + 63) / 64)

include entries

theorem setBitRows_lt_iff (address : Word) :
    (∀ row ∈ m.setBitRows address, row < m.bitmapEntries) ↔
      Settable m.memPages address := by
  unfold setBitRows Settable
  by_cases null : address = 0#64
  · simp [null]
  · rw [if_neg null]
    split
    · next above =>
        simp only [List.not_mem_nil, false_imp_iff, implies_true, true_iff]
        exact Or.inr (Or.inl (by omega))
    · next inside =>
        rw [List.forall_mem_singleton, entries, bitmapRowBits_eq]
        constructor
        · intro below
          refine Or.inr ?_
          by_contra last
          rw [not_or, not_not, not_not] at last
          omega
        · rintro (zero | different | partly)
          · exact absurd zero null
          · omega
          · omega

theorem row_lt_iff (k : Nat) :
    k / bitmapRowBits < m.bitmapEntries ↔ k < rowFrames m.memPages := by
  rw [entries, bitmapRowBits_eq, rowFrames]
  omega

theorem clearBitRows_lt_iff (address : Word) :
    (∀ row ∈ clearBitRows address, row < m.bitmapEntries) ↔
      Clearable m.memPages address := by
  unfold clearBitRows Clearable
  by_cases null : address = 0#64
  · simp [null]
  · rw [if_neg null, List.forall_mem_singleton, row_lt_iff entries,
      or_iff_right null]

/-- The rows are those of the bitmap exactly for the proper addresses. -/
theorem rowsInside_iff_proper (call : BitCall) :
    m.RowsInside call ↔ call.Proper m.memPages := by
  cases call with
  | setBit address => exact setBitRows_lt_iff entries address
  | clearBit address => exact clearBitRows_lt_iff entries address
  | checkBit address =>
      rw [BitCall.Proper, RowsInside, BitCall.rows, checkBitRows,
        List.forall_mem_singleton]
      exact row_lt_iff entries _
  | setArea start numPages =>
      rw [BitCall.Proper, RowsInside, BitCall.rows,
        forall_mem_rounds rfl fun _ => rfl]
      refine forall_congr' fun i => imp_congr_right fun _ => ?_
      rw [setBitRows_pmmSetArea]
      exact setBitRows_lt_iff entries _
  | clearArea start numPages =>
      rw [BitCall.Proper, RowsInside, BitCall.rows,
        forall_mem_rounds rfl fun _ => rfl]
      exact forall_congr' fun i => imp_congr_right fun _ =>
        clearBitRows_lt_iff entries _

end Entries

/-- With the sizes that `ParseMMAP` stores, the functions on bits access rows
of the bitmap exactly for the proper addresses. -/
theorem rowsInside_iff
    (bitmap maxAddr : Word)
    (prior : Nat → Word)
    (call : BitCall) :
    ((MemInfo.stored bitmap (maxAddr.toNat / pageSize)).pmm prior).RowsInside
        call ↔
      call.Proper (maxAddr.toNat / pageSize) := by
  have small : maxAddr.toNat / pageSize < 2 ^ 52 := by
    have bound := maxAddr.isLt
    unfold pageSize
    omega
  exact rowsInside_iff_proper (MemInfo.stored_bitmapEntries bitmap small) call

/-- The page behind 64 pages of memory is marked in row 1, and there is only
row 0. -/
theorem frame_memPages_outside :
    ¬ ∀ (bitmap maxAddr : Word) (prior : Nat → Word) (call : BitCall),
      ((MemInfo.stored bitmap (maxAddr.toNat / pageSize)).pmm prior).RowsInside
        call := by
  intro always
  have inside := always 0x2000#64 0x40000#64 (fun _ => 0#64)
    (.setBit 0x40000#64) 1 (by decide)
  exact absurd inside (by decide)

end Pmm
end PivotOs
