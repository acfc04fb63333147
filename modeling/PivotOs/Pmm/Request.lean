import PivotOs.Pmm.Frames
import Mathlib.Order.Bounds.Basic

/-!
# When the search for a frame ends

The row counter of `pmm_request_frame` has 16 bits, `bitmap_entries` has 64.
With more rows than the counter can count the test at the head of the loop never
fails, and the walk ends only at a clear bit in one of the first `2 ^ 16` rows.
-/

namespace PivotOs
namespace Pmm

variable {m : Pmm}

/-- `pmm_request_frame` ends, after however many rounds, with the lowest clear
bit of the bitmap, or with -1 if there is none. -/
def FindsLowest (m : Pmm) : Prop :=
  ∃ fuel frame, requestFrom m fuel 0#16 = some frame ∧
    ((∃ k : Nat, frame = k ∧ IsLeast {k | m.Free k} k) ∨
      (frame = -1 ∧ ∀ k, ¬ m.Free k))

/-- An answer is the right one. -/
theorem Answer.lowest
    {frame : Int}
    (answer : m.Answer frame) :
    (∃ k : Nat, frame = k ∧ IsLeast {k | m.Free k} k) ∨
      (frame = -1 ∧ ∀ k, ¬ m.Free k) := by
  rcases answer with ⟨none, used⟩ | ⟨k, eq, -, free, below⟩
  · exact Or.inr ⟨none, fun k free => free.2 (used k free.1)⟩
  · refine Or.inl ⟨k, eq, free, fun other otherFree => ?_⟩
    by_contra before
    exact otherFree.2 (below other (Nat.lt_of_not_le before))

theorem StopsAt.of_free
    {k : Nat}
    (small : k < 2 ^ 22)
    (free : m.Free k) :
    m.StopsAt (k / 64) := by
  refine ⟨by omega, Or.inr ⟨k % 64, Nat.mod_lt _ (by decide), ?_⟩⟩
  rw [← Bool.not_eq_true]
  exact free.2

/-- With no clear bit in the rows that the counter can reach, and more rows
than that, the walk goes on for ever. -/
theorem requestFrom_eq_none
    (long : 2 ^ 16 ≤ m.bitmapEntries)
    (full : ∀ k, k < 2 ^ 22 → ¬ m.Free k)
    (fuel : Nat) (row : BitVec 16) :
    requestFrom m fuel row = none := by
  induction fuel generalizing row with
  | zero => rfl
  | succ fuel inductionHypothesis =>
      have small := row.isLt
      have inside : row.toNat < m.bitmapEntries := by omega
      rw [requestFrom, if_pos inside]
      split
      · split
        · rename_i col found
          obtain ⟨colSmall, clear, -⟩ := clearColumn_some (by decide) found
          refine absurd ?_ (full (row.toNat * 64 + col) (by omega))
          rw [Free, Used, bitmapRowBits_eq,
            show (row.toNat * 64 + col) / 64 = row.toNat by omega,
            show (row.toNat * 64 + col) % 64 = col by omega]
          exact ⟨inside, by simp [clear]⟩
        · exact inductionHypothesis (row + 1#16)
      · exact inductionHypothesis (row + 1#16)

/-- `pmm_request_frame` finds the lowest clear bit, or that there is none,
exactly when the rows can be counted with 16 bits or there is a clear bit in
the rows that can. -/
theorem findsLowest_iff (m : Pmm) :
    m.FindsLowest ↔
      m.bitmapEntries < 2 ^ 16 ∨ ∃ k, k < 2 ^ 22 ∧ m.Free k := by
  constructor
  · rintro ⟨fuel, frame, result, -⟩
    by_contra neither
    obtain ⟨long, full⟩ := not_or.mp neither
    rw [requestFrom_eq_none (Nat.le_of_not_lt long)
      fun k small free => full ⟨k, small, free⟩] at result
    contradiction
  · intro condition
    obtain ⟨stop, stops⟩ : ∃ stop, m.StopsAt stop := by
      rcases condition with short | ⟨k, small, free⟩
      · exact ⟨m.bitmapEntries, short, Or.inl le_rfl⟩
      · exact ⟨k / 64, .of_free small free⟩
    obtain ⟨frame, result⟩ := Option.isSome_iff_exists.mp
      (requestFrom_isSome stops (Nat.zero_le _)
        (Nat.lt_succ_self stop) : (requestFrom m (stop + 1) 0#16).isSome)
    exact ⟨stop + 1, frame, result, (requestFrom_answer (by simp) result).lowest⟩

/-- A bitmap with `2 ^ 16` rows, all of them full. -/
def fullBitmap : Pmm where
  bitmap := fun _ => bitmapRowFull
  bitmapEntries := 2 ^ 16
  memPages := 2 ^ 22

/-- The search in it never ends. -/
theorem fullBitmap_unanswered : ¬ ∀ m : Pmm, m.FindsLowest := by
  intro claim
  obtain ⟨fuel, frame, result, -⟩ := claim fullBitmap
  rw [requestFrom_eq_none le_rfl] at result
  · contradiction
  · intro k _ free
    exact free.2 (getLsbD_bitmapRowFull (column_lt k))

end Pmm
end PivotOs
