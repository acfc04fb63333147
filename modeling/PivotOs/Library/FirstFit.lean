import Mathlib.Data.Finset.Card
import Mathlib.Data.Finset.Range
import Mathlib.Order.Bounds.Basic
import Mathlib.Tactic.Common

/-!
# First fit over a line of places

Places `0, ..., total - 1` are free or taken.  A request for `count` places
fits at a free place from which `count` consecutive places are free; the first
fit is the least such place from a starting point on.  A request for no places
still asks for one free place to start from.

A search may skip places that cannot be the start of a fit.  It may start
behind places that are all taken, and it may give up when too few places are
free.
-/

namespace FirstFit

variable (free : Nat → Prop) (total : Nat)

/-- The `count` places from `start` on exist and are free. -/
def Run (start count : Nat) : Prop :=
  ∀ offset, offset < count → start + offset < total ∧ free (start + offset)

/-- A request for `count` places fits at `start`. -/
def Fits (count start : Nat) : Prop :=
  (start < total ∧ free start) ∧ Run free total start count

/-- `place` is the first fit from `start` on. -/
structure First (count start place : Nat) : Prop where
  /-- The request fits there. -/
  fits : Fits free total count place
  /-- The place is not before the start of the search. -/
  start_le : start ≤ place
  /-- No earlier place of the search fits. -/
  least : ∀ other, start ≤ other → other < place →
    ¬ Fits free total count other

variable {free : Nat → Prop} {total count start place : Nat}

/-- A run that stops too early rules out every start up to its end. -/
theorem not_fits_of_stop
    {length : Nat}
    (short : length < count)
    (stop : ¬ (start + length < total ∧ free (start + length)))
    {other : Nat}
    (after : start ≤ other)
    (before : other ≤ start + length) :
    ¬ Fits free total count other := by
  rintro ⟨first, run⟩
  apply stop
  have reached := run (start + length - other) (by omega)
  rwa [show other + (start + length - other) = start + length by omega]
    at reached

/-- The search may skip an unsuitable stretch. -/
theorem First.skip
    {next : Nat}
    (forward : start ≤ next)
    (unsuitable : ∀ other, start ≤ other → other < next →
      ¬ Fits free total count other)
    (first : First free total count next place) :
    First free total count start place where
  fits := first.fits
  start_le := Nat.le_trans forward first.start_le
  least := by
    intro other after before
    by_cases early : other < next
    · exact unsuitable other after early
    · exact first.least other (by omega) before

/-- The places of a fit exist. -/
theorem First.end_le (first : First free total count start place) :
    place + count ≤ total := by
  by_cases none : count = 0
  · have inside := first.fits.1.1
    omega
  · have last := (first.fits.2 (count - 1) (by omega)).1
    omega

/-- There is one first fit. -/
theorem First.unique
    {other : Nat}
    (first : First free total count start place)
    (second : First free total count start other) :
    place = other := by
  apply Nat.le_antisymm
  · by_contra before
    exact first.least other second.start_le (Nat.lt_of_not_le before)
      second.fits
  · by_contra before
    exact second.least place first.start_le (Nat.lt_of_not_le before)
      first.fits

/-- A request for some places fits wherever a run of them is free. -/
theorem fits_iff_run (some_places : 0 < count) :
    Fits free total count start ↔ Run free total start count := by
  constructor
  · exact fun fits => fits.2
  · intro run
    have first := run 0 some_places
    exact ⟨first, run⟩

/-- A search may start behind places that are taken. -/
theorem First.isLeast
    (some_places : 0 < count)
    (taken : ∀ other, other < start → other < total → ¬ free other)
    (first : First free total count start place) :
    IsLeast {place | Run free total place count} place := by
  refine ⟨first.fits.2, fun other run => ?_⟩
  have fits := (fits_iff_run some_places).mpr run
  by_contra before
  refine first.least other ?_ (Nat.lt_of_not_le before) fits
  by_contra early
  exact taken other (Nat.lt_of_not_le early) fits.1.1 fits.1.2

/-! ## Counting -/

section Count

variable [DecidablePred free]

variable (free total) in
/-- How many places are taken. -/
def takenCount : Nat := ((Finset.range total).filter fun p => ¬ free p).card

/-- The places of a run, as a set. -/
theorem Run.image_subset (run : Run free total start count) :
    (Finset.range count).image (start + ·) ⊆
      (Finset.range total).filter free := by
  intro place member
  obtain ⟨offset, below, rfl⟩ := Finset.mem_image.mp member
  exact Finset.mem_filter.mpr
    ((run offset (Finset.mem_range.mp below)).imp_left Finset.mem_range.mpr)

theorem card_run (start count : Nat) :
    ((Finset.range count).image (start + ·)).card = count := by
  rw [Finset.card_image_of_injective, Finset.card_range]
  exact fun _ _ same => Nat.add_left_cancel same

/-- A run needs as many places that are not taken. -/
theorem Run.add_takenCount_le (run : Run free total start count) :
    count + takenCount free total ≤ total := by
  have places := Finset.card_le_card run.image_subset
  have parts := Finset.card_filter_add_card_filter_not
    (s := Finset.range total) (p := free)
  rw [card_run] at places
  rw [Finset.card_range] at parts
  unfold takenCount
  omega

/-- Taking the places of a run, and perhaps others, adds at least as many. -/
theorem takenCount_add_le
    {later : Nat → Prop} [DecidablePred later]
    (keeps : ∀ place, place < total → ¬ free place → ¬ later place)
    (run : Run free total start count)
    (taken : ∀ offset, offset < count → ¬ later (start + offset)) :
    takenCount free total + count ≤ takenCount later total := by
  have apart : Disjoint ((Finset.range total).filter fun p => ¬ free p)
      ((Finset.range count).image (start + ·)) := by
    rw [Finset.disjoint_left]
    intro place member inRun
    exact (Finset.mem_filter.mp member).2
      (Finset.mem_filter.mp (run.image_subset inRun)).2
  unfold takenCount
  rw [← card_run start count, ← Finset.card_union_of_disjoint apart]
  apply Finset.card_le_card
  intro place member
  rw [Finset.mem_filter, Finset.mem_range]
  rcases Finset.mem_union.mp member with old | new
  · obtain ⟨inside, used⟩ := Finset.mem_filter.mp old
    have inside := Finset.mem_range.mp inside
    exact ⟨inside, keeps place inside used⟩
  · obtain ⟨offset, below, rfl⟩ := Finset.mem_image.mp new
    have below := Finset.mem_range.mp below
    exact ⟨(run offset below).1, taken offset below⟩

theorem takenCount_le_of_keeps
    {later : Nat → Prop} [DecidablePred later]
    (keeps : ∀ place, place < total → ¬ free place → ¬ later place) :
    takenCount free total ≤ takenCount later total := by
  have nothing : Run free total 0 0 := fun _ below => absurd below (by omega)
  have added := takenCount_add_le keeps nothing
    fun _ below => absurd below (by omega)
  omega

end Count

end FirstFit
