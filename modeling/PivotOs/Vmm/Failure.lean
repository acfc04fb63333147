import PivotOs.Vmm.Release

/-!
# A window without room

`valloc` does not look at the pointer it gets from `bm_alloc`.  When the window
has no run of the length asked for, its loop still takes a frame in every round
and maps it behind the null pointer, so a failing call is without effect only
when there is nothing to take.
-/

namespace PivotOs

open Paging Bitmap

/-- `alloc_frame` returns null: no bit is clear, or the first clear bit is that
of frame 0, which it takes for a failure. -/
def Pmm.Exhausted (m : Pmm) : Prop := (∀ k, ¬ m.Free k) ∨ m.Free 0

namespace Machine

variable {s next : Machine} {start flags p4Tbl : Word} {count : Nat}

theorem not_exhausted_of_taken
    {m after : Pmm} {frame : Word}
    (taken : m.Taken frame after) :
    ¬ m.Exhausted := by
  rintro (none | zero)
  · exact none _ taken.free
  · have positive : 0 < frameOf frame :=
      Nat.pos_of_ne_zero (Pmm.Fresh.of_taken taken).frameOf_ne_zero
    exact zero.2 (taken.lowest 0 positive)

/-- Without frames the loop does nothing. -/
theorem mapFrames_of_exhausted
    (exhausted : s.pmm.Exhausted)
    (mapped : mapFrames start flags p4Tbl count s = some next) :
    next.pmm = s.pmm ∧ next.tables = s.tables ∧ next.pml4 = s.pml4 := by
  induction count generalizing next with
  | zero =>
      obtain rfl := Option.some.inj mapped
      exact ⟨rfl, rfl, rfl⟩
  | succ count inductionHypothesis =>
      obtain ⟨middle, earlier, round⟩ := Option.bind_eq_some_iff.mp mapped
      obtain ⟨pmm_eq, tables_eq, pml4_eq⟩ := inductionHypothesis earlier
      obtain ⟨⟨frame, allocated⟩, answered, last⟩ :=
        Option.bind_eq_some_iff.mp round
      rcases allocFrame_cases answered with ⟨rfl, -, rfl⟩ | ⟨taken, -⟩
      · rw [mapAddr_null _ _ _ (Or.inl rfl)] at last
        obtain rfl := Option.some.inj last
        exact ⟨pmm_eq, tables_eq, pml4_eq⟩
      · rw [pmm_eq] at taken
        exact absurd exhausted (not_exhausted_of_taken taken)

theorem exhausted_of_null (answered : s.allocFrame = some (0#64, next)) :
    s.pmm.Exhausted := by
  obtain ⟨⟨frame, after⟩, found, same⟩ := Option.map_eq_some_iff.mp answered
  obtain ⟨rfl, -⟩ := Prod.mk.inj same
  rcases Pmm.allocFrame_cases found with ⟨-, -, full | zero⟩ | taken
  · exact Or.inl fun k free => free.2 (full k free.1)
  · exact Or.inr zero
  · exact absurd rfl taken.ne_zero

/-- With a frame at hand the first round takes one. -/
theorem mapFrames_takes
    (marks : s.pmm.Marks)
    (some_pages : count ≠ 0)
    (stocked : ¬ s.pmm.Exhausted)
    (mapped : mapFrames start flags p4Tbl count s = some next) :
    ∃ k, ¬ s.pmm.Used k ∧ next.pmm.Used k := by
  induction count generalizing next with
  | zero => exact absurd rfl some_pages
  | succ count inductionHypothesis =>
      obtain ⟨middle, earlier, round⟩ := Option.bind_eq_some_iff.mp mapped
      by_cases isFirst : count = 0
      · subst isFirst
        obtain rfl := Option.some.inj earlier
        obtain ⟨⟨frame, allocated⟩, answered, last⟩ :=
          Option.bind_eq_some_iff.mp round
        rcases allocFrame_cases answered with ⟨rfl, -⟩ | ⟨taken, -⟩
        · exact absurd (exhausted_of_null answered) stocked
        · refine ⟨frameOf frame, taken.free.2, ?_⟩
          apply (mapAddr_advances last).marked.used
          exact (taken.used_iff marks _).mpr (Or.inr rfl)
      · obtain ⟨k, free, used⟩ := inductionHypothesis isFirst earlier
        exact ⟨k, free, (mapFrame_advances round).marked.used k used⟩

end Machine

namespace Space

/-- The frame bitmap, the window's bitmap and every translation in its page
tables are as before. -/
structure Unaffected (s next : Space) : Prop where
  /-- The frame bitmap. -/
  pmm_eq : next.machine.pmm = s.machine.pmm
  /-- The bytes of the window, those of its bitmap included. -/
  mem_eq : next.mem = s.mem
  /-- The record. -/
  vi_eq : next.vi = s.vi
  /-- The translations. -/
  translateAddr_eq : ∀ address,
    next.machine.translateAddr address s.vi.p4Tbl =
      s.machine.translateAddr address s.vi.p4Tbl

/-- A `valloc` that returns null is without effect exactly when no pages were
asked for or there was no frame to take. -/
theorem unaffected_iff
    (level : VmmLevel) (maxPages : Nat)
    (fits : level.base + maxPages * pageSize < 2 ^ 64)
    (prior : Memory) (live : List Allocation)
    (s next : Space) (pages : Nat)
    (reachable : Pool.Reachable (level.window maxPages fits) prior
      ⟨s.mem, s.vi.bm, live⟩)
    (marks : s.machine.pmm.Marks)
    (failed : s.valloc pages = some (0, next)) :
    Unaffected s next ↔ pages = 0 ∨ s.machine.pmm.Exhausted := by
  by_cases none : pages = 0
  · subst none
    rw [valloc, if_pos rfl] at failed
    obtain ⟨-, rfl⟩ := Prod.mk.inj (Option.some.inj failed)
    exact iff_of_true ⟨rfl, rfl, rfl, fun _ => rfl⟩ (Or.inl rfl)
  obtain ⟨machine, mapped, null, rfl⟩ := valloc_eq_some none failed
  have quiet : bmAlloc s.mem (wrap (pages * pageSize)) s.vi.bm =
      (0, s.mem, s.vi.bm) := reachable.inv.bmAlloc_eq_null null.symm
  constructor
  · intro unaffected
    refine Or.inr ?_
    by_contra stocked
    obtain ⟨k, free, used⟩ :=
      Machine.mapFrames_takes marks none stocked mapped
    rw [show machine.pmm = s.machine.pmm from unaffected.pmm_eq] at used
    exact free used
  · intro condition
    have exhausted := condition.resolve_left none
    obtain ⟨pmm_eq, tables_eq, pml4_eq⟩ :=
      Machine.mapFrames_of_exhausted exhausted mapped
    rw [quiet]
    refine ⟨pmm_eq, rfl, rfl, fun address => ?_⟩
    simp only [Machine.translateAddr, tables_eq, pml4_eq]

/-- A window of eight pages, one of them for the bitmap, asked for eight. -/
theorem sample_failure :
    ∃ first next, Client.sampleSpace.initVmm .supervisor 8 = some first ∧
      first.machine.pmm.Marks ∧ first.valloc 8 = some (0, next) ∧
      ¬ first.machine.pmm.Used 10 ∧ next.machine.pmm.Used 10 := by
  have observed : ((Client.sampleSpace.initVmm .supervisor 8).bind fun first =>
      (first.valloc 8).map fun result =>
        (result.1, decide (first.machine.pmm.Used 10),
          decide (result.2.machine.pmm.Used 10))) =
      some (0, false, true) := by decide +kernel
  obtain ⟨first, initialised, ran⟩ := Option.bind_eq_some_iff.mp observed
  obtain ⟨⟨address, next⟩, failed, same⟩ := Option.map_eq_some_iff.mp ran
  simp only [Prod.mk.injEq, decide_eq_true_eq, decide_eq_false_iff_not] at same
  obtain ⟨rfl, free, used⟩ := same
  obtain ⟨machine, mapped, rfl⟩ := Option.map_eq_some_iff.mp initialised
  refine ⟨_, next, initialised, ?_, failed, free, used⟩
  exact (Machine.mapFrames_advances mapped).marked.marks
    Machine.sampleMachine_marks

theorem unaffected_iff_sample :
    ∃ first next, Client.sampleSpace.initVmm .supervisor 8 = some first ∧
      first.valloc 8 = some (0, next) ∧
      (Unaffected first next ↔ 8 = 0 ∨ first.machine.pmm.Exhausted) := by
  obtain ⟨first, next, initialised, marks, failed, -⟩ := sample_failure
  exact ⟨first, next, initialised, failed,
    unaffected_iff .supervisor 8 (by decide) _ [] first next 8
      (initVmm_reachable (by decide) initialised) marks failed⟩

/-- A failing call has taken frame 10. -/
theorem failed_valloc_takes_frames :
    ¬ ∀ (level : VmmLevel) (maxPages : Nat)
      (fits : level.base + maxPages * pageSize < 2 ^ 64)
      (prior : Memory) (live : List Allocation)
      (s next : Space) (pages : Nat),
      Pool.Reachable (level.window maxPages fits) prior
        ⟨s.mem, s.vi.bm, live⟩ →
      s.machine.pmm.Marks → s.valloc pages = some (0, next) →
        Unaffected s next := by
  intro claim
  obtain ⟨first, next, initialised, marks, failed, free, used⟩ := sample_failure
  have unaffected := claim .supervisor 8 (by decide) _ [] first next 8
    (initVmm_reachable (by decide) initialised) marks failed
  rw [unaffected.pmm_eq] at used
  exact free used

end Space
end PivotOs
