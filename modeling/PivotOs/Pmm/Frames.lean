import PivotOs.Pmm.Defs
import Mathlib.Data.Finset.Card

/-!
# Frames as bits

The bitmap read as a set of frames: which frames `pmm_set_bit` and
`pmm_clear_bit` change, and which frame `alloc_frame` takes.
-/

namespace PivotOs
namespace Pmm

variable {m : Pmm}

/-- The bit of frame `k` is set. -/
def Used (m : Pmm) (k : Nat) : Prop :=
  (m.bitmap (k / bitmapRowBits)).getLsbD (k % bitmapRowBits) = true

instance (m : Pmm) (k : Nat) : Decidable (m.Used k) :=
  inferInstanceAs (Decidable (_ = _))

/-- Frame `k` has a bit in the bitmap, and it is clear. -/
def Free (m : Pmm) (k : Nat) : Prop :=
  k / bitmapRowBits < m.bitmapEntries ∧ ¬ m.Used k

instance (m : Pmm) (k : Nat) : Decidable (m.Free k) :=
  inferInstanceAs (Decidable (_ ∧ _))

/-- Every frame that `alloc_frame` can find is one `pmm_set_bit` will mark. -/
def Marks (m : Pmm) : Prop := ∀ k, m.Free k → k ≤ m.memPages

theorem bitmapRowBits_eq : bitmapRowBits = 64 := rfl

/-! ## Single bits -/

theorem getLsbD_one_shiftLeft {bit col : Nat} (small : bit < 64) :
    (1#64 <<< col).getLsbD bit = decide (bit = col) := by
  simp only [BitVec.getLsbD_shiftLeft, BitVec.getLsbD_one]
  by_cases same : bit = col
  · subst same
    simp [small]
  · by_cases below : bit < col
    · simp [below, same]
    · simp [same, show bit - col ≠ 0 by omega]

theorem and_bit_eq_zero_iff (row : Word) {col : Nat} (small : col < 64) :
    row &&& 1#64 <<< col = 0#64 ↔ row.getLsbD col = false := by
  constructor
  · intro zero
    have bit := congrArg (fun word : Word => word.getLsbD col) zero
    simpa [BitVec.getLsbD_and, getLsbD_one_shiftLeft small] using bit
  · intro clear
    apply BitVec.eq_of_getLsbD_eq
    intro bit below
    rw [BitVec.getLsbD_and, getLsbD_one_shiftLeft below]
    by_cases same : bit = col
    · simp [same, clear]
    · simp [same]

/-- Two frames with the same row and column are the same. -/
theorem row_col_eq_iff (left right : Nat) :
    left / bitmapRowBits = right / bitmapRowBits ∧
        left % bitmapRowBits = right % bitmapRowBits ↔
      left = right := by
  rw [bitmapRowBits_eq]
  omega

theorem column_lt (k : Nat) : k % bitmapRowBits < 64 :=
  Nat.mod_lt k (by decide)

/-! ## Setting and clearing -/

@[simp] theorem setRow_bitmapEntries (row : Nat) (value : Word) :
    (m.setRow row value).bitmapEntries = m.bitmapEntries := rfl

@[simp] theorem setRow_memPages (row : Nat) (value : Word) :
    (m.setRow row value).memPages = m.memPages := rfl

@[simp] theorem pmmSetBit_bitmapEntries (address : Word) :
    (m.pmmSetBit address).bitmapEntries = m.bitmapEntries := by
  unfold pmmSetBit
  split
  · rfl
  · simp only
    split <;> rfl

@[simp] theorem pmmSetBit_memPages (address : Word) :
    (m.pmmSetBit address).memPages = m.memPages := by
  unfold pmmSetBit
  split
  · rfl
  · simp only
    split <;> rfl

@[simp] theorem pmmClearBit_bitmapEntries (address : Word) :
    (m.pmmClearBit address).bitmapEntries = m.bitmapEntries := by
  unfold pmmClearBit
  split <;> rfl

@[simp] theorem pmmClearBit_memPages (address : Word) :
    (m.pmmClearBit address).memPages = m.memPages := by
  unfold pmmClearBit
  split <;> rfl

theorem used_pmmSetBit (address : Word) (k : Nat) :
    (m.pmmSetBit address).Used k ↔
      m.Used k ∨
        (address ≠ 0#64 ∧ frameOf address ≤ m.memPages ∧
          k = frameOf address) := by
  unfold pmmSetBit
  by_cases null : address = 0#64
  · simp [null]
  · rw [if_neg null]
    simp only
    by_cases high : m.memPages < frameOf address
    · rw [if_pos high]
      simp [Nat.not_le.mpr high]
    · rw [if_neg high]
      simp only [Used, setRow]
      by_cases row : k / bitmapRowBits = frameOf address / bitmapRowBits
      · rw [if_pos row, BitVec.getLsbD_or,
          getLsbD_one_shiftLeft (column_lt k), ← row]
        have same := row_col_eq_iff k (frameOf address)
        simp only [Bool.or_eq_true, decide_eq_true_eq]
        constructor
        · rintro (old | equal)
          · exact Or.inl old
          · exact Or.inr ⟨null, Nat.not_lt.mp high, same.mp ⟨row, equal⟩⟩
        · rintro (old | ⟨-, -, equal⟩)
          · exact Or.inl old
          · exact Or.inr (same.mpr equal).2
      · rw [if_neg row]
        constructor
        · exact Or.inl
        · rintro (old | ⟨-, -, equal⟩)
          · exact old
          · exact absurd (congrArg (· / bitmapRowBits) equal) row

theorem used_pmmClearBit (address : Word) (k : Nat) :
    (m.pmmClearBit address).Used k ↔
      m.Used k ∧ ¬ (address ≠ 0#64 ∧ k = frameOf address) := by
  unfold pmmClearBit
  by_cases null : address = 0#64
  · simp [null]
  · rw [if_neg null]
    simp only [Used, setRow]
    by_cases row : k / bitmapRowBits = frameOf address / bitmapRowBits
    · rw [if_pos row, BitVec.getLsbD_and, BitVec.getLsbD_not,
        getLsbD_one_shiftLeft (column_lt k), ← row]
      have same := row_col_eq_iff k (frameOf address)
      simp only [Bool.and_eq_true, decide_eq_true_eq, Bool.not_eq_true',
        decide_eq_false_iff_not]
      constructor
      · rintro ⟨old, -, different⟩
        exact ⟨old, fun both => different (same.mpr both.2).2⟩
      · rintro ⟨old, different⟩
        exact ⟨old, column_lt k, fun equal =>
          different ⟨null, same.mp ⟨row, equal⟩⟩⟩
    · rw [if_neg row]
      constructor
      · intro old
        exact ⟨old, fun both => row (congrArg (· / bitmapRowBits) both.2)⟩
      · exact And.left

/-! ## The search for a frame -/

theorem clearColumn_some
    {row : Word} {fuel col found : Nat}
    (bound : col + fuel ≤ 64)
    (result : clearColumn row fuel col = some found) :
    found < 64 ∧ row.getLsbD found = false ∧
      ∀ other, col ≤ other → other < found → row.getLsbD other = true := by
  induction fuel generalizing col with
  | zero => simp [clearColumn] at result
  | succ fuel inductionHypothesis =>
      rw [clearColumn] at result
      split at result
      · rename_i clear
        obtain rfl : col = found := by simpa using result
        refine ⟨by omega, (and_bit_eq_zero_iff row (by omega)).mp clear, ?_⟩
        intro other after before
        omega
      · rename_i set
        obtain ⟨small, clear, earlier⟩ :=
          inductionHypothesis (by omega) result
        refine ⟨small, clear, ?_⟩
        intro other after before
        by_cases here : other = col
        · rw [and_bit_eq_zero_iff row (by omega)] at set
          simpa [here] using set
        · exact earlier other (by omega) before

theorem clearColumn_none
    {row : Word} {fuel col : Nat}
    (bound : col + fuel ≤ 64)
    (result : clearColumn row fuel col = none)
    {other : Nat}
    (after : col ≤ other)
    (before : other < col + fuel) :
    row.getLsbD other = true := by
  induction fuel generalizing col with
  | zero => omega
  | succ fuel inductionHypothesis =>
      rw [clearColumn] at result
      split at result
      · simp at result
      · rename_i set
        by_cases here : other = col
        · rw [and_bit_eq_zero_iff row (by omega)] at set
          simpa [here] using set
        · exact inductionHypothesis (by omega) result (by omega) (by omega)

theorem getLsbD_bitmapRowFull {bit : Nat} (small : bit < 64) :
    bitmapRowFull.getLsbD bit = true := by
  rw [show bitmapRowFull = BitVec.allOnes 64 by decide,
    BitVec.getLsbD_allOnes, decide_eq_true small]

/-- What `pmm_request_frame` answers: the lowest clear bit, or that there is
none. -/
def Answer (m : Pmm) (frame : Int) : Prop :=
  (frame = -1 ∧ ∀ k, k / 64 < m.bitmapEntries → m.Used k) ∨
    ∃ k : Nat, frame = k ∧ k < 2 ^ 22 ∧ m.Free k ∧ ∀ j, j < k → m.Used j

theorem requestFrom_answer
    {fuel : Nat} {row : BitVec 16} {frame : Int}
    (before : ∀ k, k < 64 * row.toNat → m.Used k)
    (result : requestFrom m fuel row = some frame) :
    m.Answer frame := by
  induction fuel generalizing row with
  | zero => simp [requestFrom] at result
  | succ fuel inductionHypothesis =>
      have small := row.isLt
      -- The rows up to this one are full when the walk goes on; a counter
      -- that wraps starts again with nothing to show.
      have next : (∀ col, col < 64 → (m.bitmap row.toNat).getLsbD col = true) →
          ∀ k, k < 64 * (row + 1#16).toNat → m.Used k := by
        intro full k below
        rw [BitVec.toNat_add] at below
        by_cases last : row.toNat + 1 = 2 ^ 16
        · simp [last] at below
        · rw [Nat.mod_eq_of_lt (by simp; omega)] at below
          simp only [BitVec.toNat_ofNat] at below
          by_cases early : k < 64 * row.toNat
          · exact before k early
          · have here : k / 64 = row.toNat := by omega
            rw [Used, bitmapRowBits_eq, here]
            exact full _ (Nat.mod_lt _ (by decide))
      rw [requestFrom] at result
      split at result
      · rename_i inside
        split at result
        · split at result
          · rename_i col found
            obtain ⟨colSmall, clear, earlier⟩ :=
              clearColumn_some (by decide) found
            obtain rfl := Option.some.inj result
            refine Or.inr ⟨row.toNat * 64 + col, rfl, by omega, ?_, ?_⟩
            · rw [Free, Used, bitmapRowBits_eq,
                show (row.toNat * 64 + col) / 64 = row.toNat by omega,
                show (row.toNat * 64 + col) % 64 = col by omega]
              exact ⟨inside, by simp [clear]⟩
            · intro j below
              by_cases early : j < 64 * row.toNat
              · exact before j early
              · rw [Used, bitmapRowBits_eq,
                  show j / 64 = row.toNat by omega]
                exact earlier _ (Nat.zero_le _) (by omega)
          · rename_i missing
            apply inductionHypothesis (next ?_) result
            intro col colSmall
            exact clearColumn_none (by decide) missing (Nat.zero_le _)
              (by simpa [bitmapRowBits_eq] using colSmall)
        · rename_i full
          rw [not_not] at full
          apply inductionHypothesis (next ?_) result
          intro col colSmall
          rw [full]
          exact getLsbD_bitmapRowFull colSmall
      · rename_i outside
        obtain rfl := Option.some.inj result
        refine Or.inl ⟨rfl, ?_⟩
        intro k inside
        exact before k (by omega)

/-- A row at which the walk stops: behind the last one, or with a clear bit. -/
def StopsAt (m : Pmm) (row : Nat) : Prop :=
  row < 2 ^ 16 ∧
    (m.bitmapEntries ≤ row ∨
      ∃ col, col < 64 ∧ (m.bitmap row).getLsbD col = false)

/-- The walk ends when there is a row ahead at which it stops. -/
theorem requestFrom_isSome
    {fuel stop : Nat} {row : BitVec 16}
    (stops : m.StopsAt stop)
    (reached : row.toNat ≤ stop)
    (enough : stop < fuel + row.toNat) :
    (requestFrom m fuel row).isSome := by
  obtain ⟨short, end_or_clear⟩ := stops
  induction fuel generalizing row with
  | zero => omega
  | succ fuel inductionHypothesis =>
      have next : row.toNat < stop →
          (requestFrom m fuel (row + 1#16)).isSome := by
        intro ahead
        have increment : (row + 1#16).toNat = row.toNat + 1 := by
          rw [BitVec.toNat_add]
          simp only [BitVec.toNat_ofNat]
          omega
        exact inductionHypothesis (by omega) (by omega)
      rw [requestFrom]
      split
      · rename_i inside
        by_cases here : row.toNat = stop
        · -- The row has a clear bit, so both tests find it.
          obtain behind | ⟨col, small, clear⟩ := end_or_clear
          · omega
          rw [← here] at clear
          rw [if_pos]
          · split
            · rfl
            · rename_i missing
              rw [clearColumn_none (by decide) missing (Nat.zero_le col)
                (by simpa [bitmapRowBits_eq] using small)] at clear
              contradiction
          · intro full
            rw [full, getLsbD_bitmapRowFull small] at clear
            contradiction
        · split
          · split
            · rfl
            · exact next (by omega)
          · exact next (by omega)
      · rfl

theorem pmmRequestFrame_answer
    {frame : Int}
    (result : m.pmmRequestFrame = some frame) :
    m.Answer frame :=
  requestFrom_answer (by simp) result

theorem pmmRequestFrame_isSome (short : m.bitmapEntries < 2 ^ 16) :
    m.pmmRequestFrame.isSome :=
  requestFrom_isSome ⟨short, Or.inl le_rfl⟩ (by simp) (by simp; omega)

/-! ## `alloc_frame` -/

/-- `alloc_frame` handed out `address`. -/
structure Taken (m : Pmm) (address : Word) (next : Pmm) : Prop where
  /-- The address is a frame. -/
  aligned : address.toNat % 4096 = 0
  /-- It is not null. -/
  ne_zero : address ≠ 0#64
  /-- The row counter bounds the frame. -/
  small : frameOf address < 2 ^ 22
  /-- The frame was free. -/
  free : m.Free (frameOf address)
  /-- No lower frame was. -/
  lowest : ∀ j, j < frameOf address → m.Used j
  /-- `pmm_set_bit` ran on it. -/
  next_eq : next = m.pmmSetBit address

/-- `alloc_frame` returns null, without effect, or takes the lowest free
frame. -/
theorem allocFrame_cases
    {address : Word} {next : Pmm}
    (result : m.allocFrame = some (address, next)) :
    (address = 0#64 ∧ next = m ∧
      ((∀ k, k / 64 < m.bitmapEntries → m.Used k) ∨ m.Free 0)) ∨
    m.Taken address next := by
  rw [allocFrame] at result
  split at result
  · simp at result
  · rename_i frame answered
    rcases pmmRequestFrame_answer answered with ⟨rfl, full⟩ | found
    · rw [if_neg (by decide)] at result
      obtain ⟨rfl, rfl⟩ := Prod.mk.inj (Option.some.inj result)
      exact Or.inl ⟨rfl, rfl, Or.inl full⟩
    · obtain ⟨k, rfl, small, free, lowest⟩ := found
      by_cases zero : k = 0
      · subst zero
        rw [if_neg (by simp)] at result
        obtain ⟨rfl, rfl⟩ := Prod.mk.inj (Option.some.inj result)
        exact Or.inl ⟨rfl, rfl, Or.inr free⟩
      · rw [if_pos (by omega)] at result
        obtain ⟨rfl, rfl⟩ := Prod.mk.inj (Option.some.inj result)
        have value : (BitVec.ofInt 64 ((k : Int) * pageSize)).toNat =
            k * 4096 := by
          rw [show (k : Int) * pageSize = ((k * 4096 : Nat) : Int) by
            simp [pageSize], BitVec.ofInt_natCast, BitVec.toNat_ofNat]
          omega
        have frame : frameOf (BitVec.ofInt 64 ((k : Int) * pageSize)) = k := by
          rw [frameOf, value, pageSize]
          omega
        refine Or.inr
          { aligned := by omega
            ne_zero := ?_
            small := frame.symm ▸ small
            free := frame.symm ▸ free
            lowest := frame.symm ▸ lowest
            next_eq := rfl }
        intro null
        rw [null] at value
        simp at value
        omega

theorem allocFrame_isSome (short : m.bitmapEntries < 2 ^ 16) :
    m.allocFrame.isSome := by
  obtain ⟨frame, answered⟩ :=
    Option.isSome_iff_exists.mp (pmmRequestFrame_isSome short)
  rw [allocFrame, answered]
  simp only
  split <;> rfl

namespace Taken

variable {address : Word} {next : Pmm}

@[simp] theorem bitmapEntries_eq (taken : m.Taken address next) :
    next.bitmapEntries = m.bitmapEntries := by
  rw [taken.next_eq, pmmSetBit_bitmapEntries]

@[simp] theorem memPages_eq (taken : m.Taken address next) :
    next.memPages = m.memPages := by
  rw [taken.next_eq, pmmSetBit_memPages]

/-- Exactly the bit of the frame changes. -/
theorem used_iff
    (taken : m.Taken address next)
    (marks : m.Marks)
    (k : Nat) :
    next.Used k ↔ m.Used k ∨ k = frameOf address := by
  rw [taken.next_eq, used_pmmSetBit]
  have marked := marks _ taken.free
  have notNull := taken.ne_zero
  tauto

theorem free_iff
    (taken : m.Taken address next)
    (marks : m.Marks)
    (k : Nat) :
    next.Free k ↔ m.Free k ∧ k ≠ frameOf address := by
  rw [Free, Free, taken.bitmapEntries_eq, taken.used_iff marks]
  tauto

end Taken

/-! ## Counting free frames -/

/-- The free frames that `alloc_frame` can still hand out. -/
def freeCount (m : Pmm) : Nat :=
  ((Finset.range (2 ^ 22)).filter m.Free).card

theorem freeCount_le (m : Pmm) : m.freeCount ≤ 2 ^ 22 := by
  have bound := Finset.card_filter_le (Finset.range (2 ^ 22)) m.Free
  rwa [Finset.card_range] at bound

theorem freeCount_mono
    {next : Pmm}
    (fewer : ∀ k, next.Free k → m.Free k) :
    next.freeCount ≤ m.freeCount :=
  Finset.card_le_card (Finset.monotone_filter_right _ fun k _ => fewer k)

theorem Taken.freeCount_lt
    {address : Word} {next : Pmm}
    (taken : m.Taken address next)
    (marks : m.Marks) :
    next.freeCount < m.freeCount := by
  apply Finset.card_lt_card
  refine ⟨Finset.monotone_filter_right _
    fun k _ free => ((taken.free_iff marks k).mp free).1, ?_⟩
  intro back
  have member : frameOf address ∈ (Finset.range (2 ^ 22)).filter m.Free :=
    Finset.mem_filter.mpr ⟨Finset.mem_range.mpr taken.small, taken.free⟩
  have still := (Finset.mem_filter.mp (back member)).2
  exact ((taken.free_iff marks _).mp still).2 rfl

/-! ## Bitmaps with more bits set -/

/-- The second bitmap has the bits of the first, and perhaps more. -/
structure Marked (m next : Pmm) : Prop where
  /-- It has as many rows. -/
  entries_eq : next.bitmapEntries = m.bitmapEntries
  /-- It describes as many pages. -/
  memPages_eq : next.memPages = m.memPages
  /-- Set bits stay set. -/
  used : ∀ k, m.Used k → next.Used k

namespace Marked

variable {next last : Pmm}

@[refl] theorem refl (m : Pmm) : m.Marked m := ⟨rfl, rfl, fun _ => id⟩

theorem trans (first : m.Marked next) (second : next.Marked last) :
    m.Marked last where
  entries_eq := second.entries_eq.trans first.entries_eq
  memPages_eq := second.memPages_eq.trans first.memPages_eq
  used := fun k old => second.used k (first.used k old)

theorem free
    (marked : m.Marked next)
    {k : Nat}
    (free : next.Free k) :
    m.Free k :=
  ⟨marked.entries_eq ▸ free.1, fun used => free.2 (marked.used k used)⟩

theorem marks (marked : m.Marked next) (marks : m.Marks) : next.Marks := by
  intro k free
  rw [marked.memPages_eq]
  exact marks k (marked.free free)

theorem freeCount_le (marked : m.Marked next) :
    next.freeCount ≤ m.freeCount :=
  freeCount_mono fun _ => marked.free

theorem pmmSetBit (m : Pmm) (address : Word) :
    m.Marked (m.pmmSetBit address) where
  entries_eq := pmmSetBit_bitmapEntries address
  memPages_eq := pmmSetBit_memPages address
  used := fun k old => (used_pmmSetBit address k).mpr (Or.inl old)

theorem pmmSetArea (m : Pmm) (start : Word) (count : Nat) :
    m.Marked (m.pmmSetArea start count) := by
  induction count with
  | zero => exact refl m
  | succ count inductionHypothesis =>
      exact inductionHypothesis.trans (pmmSetBit _ _)

end Marked

/-- `pmm_set_area` marks every frame of the area that has a bit, frame 0
apart. -/
theorem used_pmmSetArea
    {start : Word} {count i : Nat}
    (below : i < count)
    (notNull : pageAddress start i ≠ 0#64)
    (inside : frameOf (pageAddress start i) ≤ m.memPages) :
    (m.pmmSetArea start count).Used (frameOf (pageAddress start i)) := by
  induction count with
  | zero => omega
  | succ count inductionHypothesis =>
      rw [pmmSetArea, used_pmmSetBit]
      rcases Nat.lt_succ_iff_lt_or_eq.mp below with earlier | rfl
      · exact Or.inl (inductionHypothesis earlier)
      · refine Or.inr ⟨notNull, ?_, rfl⟩
        rwa [(Marked.pmmSetArea m start i).memPages_eq]

theorem Taken.marked
    {address : Word} {next : Pmm}
    (taken : m.Taken address next) :
    m.Marked next :=
  taken.next_eq ▸ Marked.pmmSetBit m address

end Pmm
end PivotOs
