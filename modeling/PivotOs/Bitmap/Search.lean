import PivotOs.Bitmap.Ids
import PivotOs.Library.FirstFit

/-!
# The search of `bm_alloc`

The two nested loops of `bm_alloc` find the first fit, in the sense of
`FirstFit`, from `ffa` on.
-/

namespace PivotOs
namespace Bitmap

/-- Blocks of the region with id zero, as the places of a first-fit search. -/
abbrev FirstFree (mem : Memory) (b : Bitmap) (nblocks start block : Nat) : Prop :=
  FirstFit.First (Free mem b.bm) b.tblocks nblocks start block

/-- The inner loop counts free blocks, at most as many as asked for. -/
theorem freeRun_le (mem : Memory) (b : Bitmap) (count i : Nat) :
    freeRun mem b count i ≤ count := by
  induction count generalizing i with
  | zero => simp [freeRun]
  | succ count inductionHypothesis =>
      rw [freeRun]
      split
      · exact Nat.succ_le_succ (inductionHypothesis (i + 1))
      · omega

/-- Every block the inner loop counts is free. -/
theorem freeRun_run (mem : Memory) (b : Bitmap) (count i : Nat) :
    FirstFit.Run (Free mem b.bm) b.tblocks i (freeRun mem b count i) := by
  induction count generalizing i with
  | zero =>
      intro offset below
      simp [freeRun] at below
  | succ count inductionHypothesis =>
      intro offset below
      rw [freeRun] at below
      split at below
      · rename_i here
        cases offset with
        | zero => exact here
        | succ offset =>
            have next := inductionHypothesis (i + 1) offset (by omega)
            rwa [show i + 1 + offset = i + (offset + 1) by omega] at next
      · omega

/-- When the inner loop stops early, the block it stops at is not free. -/
theorem freeRun_stop
    (mem : Memory) (b : Bitmap) (count i : Nat)
    (short : freeRun mem b count i < count) :
    ¬ (i + freeRun mem b count i < b.tblocks ∧
      Free mem b.bm (i + freeRun mem b count i)) := by
  induction count generalizing i with
  | zero => omega
  | succ count inductionHypothesis =>
      rw [freeRun] at short ⊢
      split at short
      · rename_i here
        rw [if_pos here]
        have next := inductionHypothesis (i + 1) (by omega)
        rwa [show i + 1 + freeRun mem b count (i + 1) =
          i + (freeRun mem b count (i + 1) + 1) by omega] at next
      · rename_i here
        rw [if_neg here]
        exact here

/-- A result of the outer loop is the first fit. -/
theorem search_some
    (mem : Memory) (b : Bitmap) (nblocks fuel i : Nat)
    {block : Nat}
    (found : search mem b nblocks fuel i = some block) :
    FirstFree mem b nblocks i block := by
  induction fuel generalizing i with
  | zero => simp [search] at found
  | succ fuel inductionHypothesis =>
      rw [search] at found
      split at found
      · rename_i inside
        split at found
        · -- A used block: no fit starts here.
          rename_i used
          apply (inductionHypothesis (i + 1) found).skip (by omega)
          intro other after before fits
          obtain rfl : other = i := by omega
          exact used fits.1.2
        · rename_i free
          rw [not_not] at free
          simp only at found
          split at found
          · rename_i enough
            obtain rfl : i = block := by simpa using found
            refine ⟨⟨⟨inside, free⟩, ?_⟩, le_refl _, by omega⟩
            simpa only [enough] using freeRun_run mem b nblocks i
          · -- A run that is too short: no fit starts in it or at its end.
            rename_i different
            have short : freeRun mem b nblocks i < nblocks :=
              lt_of_le_of_ne (freeRun_le mem b nblocks i) different
            apply (inductionHypothesis _ found).skip (by omega)
            intro other after before
            exact FirstFit.not_fits_of_stop short
              (freeRun_stop mem b nblocks i short) after (by omega)
      · simp at found

/-- When the outer loop runs off the end, nothing fits. -/
theorem search_none
    (mem : Memory) (b : Bitmap) (nblocks fuel i : Nat)
    (enough : b.tblocks ≤ i + fuel)
    (missing : search mem b nblocks fuel i = none)
    {other : Nat}
    (after : i ≤ other) :
    ¬ FirstFit.Fits (Free mem b.bm) b.tblocks nblocks other := by
  induction fuel generalizing i with
  | zero =>
      rintro ⟨⟨inside, -⟩, -⟩
      omega
  | succ fuel inductionHypothesis =>
      rw [search] at missing
      split at missing
      · split at missing
        · rename_i used
          by_cases here : other = i
          · rintro ⟨⟨-, free⟩, -⟩
            exact used (here ▸ free)
          · exact inductionHypothesis (i + 1) (by omega) missing (by omega)
        · simp only at missing
          split at missing
          · simp at missing
          · rename_i different
            have short : freeRun mem b nblocks i < nblocks :=
              lt_of_le_of_ne (freeRun_le mem b nblocks i) different
            by_cases skipped : other ≤ i + freeRun mem b nblocks i
            · exact FirstFit.not_fits_of_stop short
                (freeRun_stop mem b nblocks i short) after skipped
            · exact inductionHypothesis _ (by omega) missing (by omega)
      · rintro ⟨⟨inside, -⟩, -⟩
        omega

/-- The two ways `bm_alloc` can go. -/
theorem bmAlloc_cases (mem : Memory) (size : Nat) (b : Bitmap) :
    bmAlloc mem size b = (0, mem, b) ∨
      ∃ i, FirstFree mem b (divCeil size b.bsize) b.ffa i ∧
        bmAlloc mem size b =
          (wrap (b.bm + i * b.bsize),
            setRun mem b.bm i (newId mem b i (divCeil size b.bsize))
              (divCeil size b.bsize),
            { b with
              ffa := if i = b.ffa then i + divCeil size b.bsize else b.ffa
              used := wrap (b.used + divCeil size b.bsize) }) := by
  unfold bmAlloc
  simp only
  split
  · exact Or.inl rfl
  · split
    · exact Or.inl rfl
    · rename_i i found
      exact Or.inr ⟨i, search_some mem b _ _ _ found, rfl⟩

/-- When `bm_alloc` returns null the request does not fit, or the count of
used blocks says so. -/
theorem bmAlloc_null
    {mem : Memory} {size : Nat} {b : Bitmap}
    (room : divCeil size b.bsize ≤ wrapSub b.tblocks b.used)
    (aligned : ∀ i, i < b.tblocks → wrap (b.bm + i * b.bsize) ≠ 0)
    (null : (bmAlloc mem size b).1 = 0)
    {other : Nat}
    (after : b.ffa ≤ other) :
    ¬ FirstFit.Fits (Free mem b.bm) b.tblocks (divCeil size b.bsize) other := by
  unfold bmAlloc at null
  simp only at null
  rw [if_neg (by omega)] at null
  split at null
  · rename_i missing
    exact search_none mem b _ _ _ (by omega) missing after
  · rename_i i found
    exact absurd null
      (aligned i (search_some mem b _ _ _ found).fits.1.1)

end Bitmap
end PivotOs
