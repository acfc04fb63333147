import PivotOs.Bitmap.Exclusive

/-!
# `bm_alloc` misses no free run

`bm_alloc` takes three short cuts: it gives up when `used` leaves too few
blocks, it starts its search at `ffa`, and it jumps over runs that are too
short.  None of them skips a run that is long enough.  For the first one `used`
must never exceed the number of blocks that are really used: every block that
it counts has been given an id, and an id is never taken back.
-/

namespace PivotOs
namespace Bitmap
namespace Pool

variable {r : Region} {s next : Pool}

/-- The number of blocks with an id other than zero. -/
def usedBlocks (r : Region) (mem : Memory) : Nat :=
  FirstFit.takenCount (Free mem r.base) r.tblocks

/-- `used` counts only used blocks. -/
def Counted (r : Region) (s : Pool) : Prop :=
  s.record.used ≤ usedBlocks r s.mem

/-- What a call does to the ids and to `used`: it may take a fresh run, and
beyond that it takes no id away. -/
theorem Inv.exec_cases
    {call : Call}
    (inv : Inv r s)
    (stepped : s.exec call = some next) :
    (KeepsUsed r s.mem next.mem ∧ next.record.used = s.record.used) ∨
      ∃ size block mem record,
        bmAlloc s.mem size s.record = (r.base + block * r.bsize, mem, record) ∧
        Fresh r s size block mem record ∧ KeepsUsed r mem next.mem ∧
        next.record.used = record.used := by
  cases call with
  | alloc size =>
      obtain rfl := Option.some.inj stepped
      obtain null | ⟨block, mem, record, eq, fresh⟩ := inv.bmAlloc_cases size
      · simp only [null]
        exact Or.inl ⟨KeepsUsed.refl _, trivial⟩
      · simp only [eq]
        exact Or.inr ⟨size, block, mem, record, eq, fresh, KeepsUsed.refl _,
          rfl⟩
  | free a =>
      obtain ⟨member, rfl⟩ := exec_free stepped
      obtain ⟨block, placed⟩ := inv.placed a member
      rw [inv.bmFree_live placed]
      exact Or.inl ⟨KeepsUsed.refl _, rfl⟩
  | realloc a size =>
      obtain ⟨oldBlock, block, mem, record, after, eq, fresh, keeps, -, rfl⟩ :=
        inv.exec_realloc_cases stepped
      exact Or.inr ⟨size, block, mem, record, eq, fresh, keeps, rfl⟩
  | store address byte =>
      obtain ⟨owned, rfl⟩ := exec_store stepped
      exact Or.inl ⟨inv.store_keepsUsed owned byte, rfl⟩

/-- A fresh run is counted. -/
theorem Fresh.usedBlocks_add_le
    {size block : Nat} {mem : Memory} {record : Bitmap}
    (fresh : Fresh r s size block mem record)
    (inv : Inv r s) :
    usedBlocks r s.mem + divCeil size r.bsize ≤ usedBlocks r mem := by
  apply FirstFit.takenCount_add_le fresh.keeps ?_ fresh.used
  rw [← inv.tblocks_eq, ← inv.bm_eq]
  exact fresh.first.fits.2

/-- `used` grows by the number of blocks asked for. -/
theorem bmAlloc_used_le
    {mem after : Memory} {size ptr : Nat} {b record : Bitmap}
    (notNull : ptr ≠ 0)
    (eq : bmAlloc mem size b = (ptr, after, record)) :
    record.used ≤ b.used + divCeil size b.bsize := by
  obtain null | ⟨i, -, taken⟩ := Bitmap.bmAlloc_cases mem size b
  · rw [null] at eq
    exact absurd (congrArg Prod.fst eq).symm notNull
  · rw [taken] at eq
    obtain ⟨-, same⟩ := Prod.mk.inj eq
    obtain ⟨-, rfl⟩ := Prod.mk.inj same
    exact Nat.mod_le _ _

theorem Counted.exec
    {call : Call}
    (counted : Counted r s)
    (inv : Inv r s)
    (stepped : s.exec call = some next) :
    Counted r next := by
  obtain ⟨keeps, used_eq⟩ | ⟨size, block, mem, record, eq, fresh, keeps, used_eq⟩ :=
    inv.exec_cases stepped
  · rw [Counted, used_eq]
    exact counted.trans (FirstFit.takenCount_le_of_keeps keeps)
  · have more := bmAlloc_used_le (r.ptr_ne_zero block) eq
    have taken := fresh.usedBlocks_add_le inv
    have kept : usedBlocks r mem ≤ usedBlocks r next.mem :=
      FirstFit.takenCount_le_of_keeps keeps
    rw [inv.bsize_eq] at more
    rw [Counted, used_eq]
    rw [Counted] at counted
    omega

/-- After `init_bitmap` the bitmap's own blocks are counted. -/
theorem init_counted (r : Region) (prior : Memory) :
    Counted r (init r prior) := by
  have inv := init_inv r prior
  have run : FirstFit.Run (fun _ => True) r.tblocks 0 r.reserved := by
    intro offset below
    have inside := r.reserved_le
    exact ⟨by omega, trivial⟩
  have counted : FirstFit.takenCount (fun _ => True) r.tblocks + r.reserved ≤
      usedBlocks r (init r prior).mem := by
    refine FirstFit.takenCount_add_le (by simp) run fun offset below => ?_
    rw [Nat.zero_add]
    exact inv.reserved_used offset below
  exact (Nat.le_add_left _ _).trans counted

theorem Reachable.counted
    {prior : Memory}
    (reachable : Reachable r prior s) :
    Counted r s := by
  obtain ⟨calls, ran⟩ := reachable
  exact (Runs.run_invariant (fun s => Inv r s ∧ Counted r s)
    (fun state call next ⟨inv, counted⟩ stepped =>
      ⟨exec_inv state call next inv stepped, counted.exec inv stepped⟩)
    ⟨init_inv r prior, init_counted r prior⟩ ran).2

/-- When `bm_alloc` gives up at once, no run is long enough. -/
theorem Counted.no_run
    {count : Nat}
    (counted : Counted r s)
    (inv : Inv r s)
    (few : wrapSub s.record.tblocks s.record.used < count)
    (i : Nat) :
    ¬ FirstFit.Run (Free s.mem r.base) r.tblocks i count := by
  intro run
  have room : count + usedBlocks r s.mem ≤ r.tblocks := run.add_takenCount_le
  have small := r.tblocks_le
  have fits := r.fits
  rw [Counted] at counted
  rw [inv.tblocks_eq, wrapSub_of_le (by omega) (by omega)] at few
  omega

/-- `bm_alloc` takes the lowest run that is long enough, and returns null only
when there is none. -/
theorem Inv.bmAlloc_least
    {size : Nat}
    (inv : Inv r s)
    (counted : Counted r s)
    (some_blocks : 0 < divCeil size r.bsize) :
    (∃ i, IsLeast {i | FirstFit.Run (Free s.mem r.base) r.tblocks i
          (divCeil size r.bsize)} i ∧
        (bmAlloc s.mem size s.record).1 = r.base + i * r.bsize) ∨
      ((bmAlloc s.mem size s.record).1 = 0 ∧
        ∀ i, ¬ FirstFit.Run (Free s.mem r.base) r.tblocks i
          (divCeil size r.bsize)) := by
  obtain null | ⟨block, mem, record, eq, fresh⟩ := inv.bmAlloc_cases size
  · rw [null]
    refine Or.inr ⟨rfl, fun i run => ?_⟩
    by_cases few : wrapSub s.record.tblocks s.record.used <
        divCeil size r.bsize
    · exact counted.no_run inv few i run
    · have fits := (FirstFit.fits_iff_run some_blocks).mpr run
      have after : s.record.ffa ≤ i := by
        by_contra early
        exact inv.below_ffa i (Nat.lt_of_not_le early) fits.1.1 fits.1.2
      refine bmAlloc_null ?_ ?_ (congrArg Prod.fst null) after ?_
      · rw [inv.bsize_eq]
        exact Nat.le_of_not_lt few
      · intro block inside
        rw [inv.tblocks_eq] at inside
        have product := r.mul_bsize_le inside.le
        have end_lt := r.fits
        rw [inv.bm_eq, inv.bsize_eq, wrap_of_lt (by omega)]
        exact r.ptr_ne_zero block
      · rw [inv.bm_eq, inv.tblocks_eq, inv.bsize_eq]
        exact fits
  · refine Or.inl ⟨block, ?_, by rw [eq]⟩
    have first := fresh.first
    rw [FirstFree, inv.bm_eq, inv.tblocks_eq] at first
    exact first.isLeast some_blocks inv.below_ffa

/-- In every state that the calls lead to, `bm_alloc` returns the lowest run of
free blocks that is long enough, and null exactly when there is none. -/
theorem bmAlloc_first_fit
    (r : Region) (prior : Memory) (s : Pool) (size : Nat)
    (reachable : Reachable r prior s)
    (some_blocks : 1 ≤ divCeil size r.bsize) :
    (∀ i, IsLeast {i | FirstFit.Run (Free s.mem r.base) r.tblocks i
          (divCeil size r.bsize)} i →
        (bmAlloc s.mem size s.record).1 = r.base + i * r.bsize) ∧
      ((bmAlloc s.mem size s.record).1 = 0 ↔
        ¬ ∃ i, FirstFit.Run (Free s.mem r.base) r.tblocks i
          (divCeil size r.bsize)) := by
  obtain ⟨block, least, eq⟩ | ⟨null, missing⟩ :=
    reachable.inv.bmAlloc_least reachable.counted some_blocks
  · constructor
    · intro i alsoLeast
      rw [eq, least.unique alsoLeast]
    · rw [eq]
      exact ⟨fun null => absurd null (r.ptr_ne_zero block),
        fun missing => absurd ⟨block, least.1⟩ missing⟩
  · exact ⟨fun i least => absurd least.1 (missing i),
      fun _ ⟨i, run⟩ => missing i run, fun _ => null⟩

/-- Two blocks between stale ids are taken and given back; their ids stay, and
the next two free blocks are those from block 8 on. -/
theorem bmAlloc_first_fit_sample :
    ∃ s, Runs.run exec (init sampleRegion fun _ => 0x50#8)
        [.alloc 9, .free ⟨4128, 9⟩] = some s ∧
      (bmAlloc s.mem 9 s.record).1 = 4096 + 8 * 8 := by
  have observed : (Runs.run exec (init sampleRegion fun _ => 0x50#8)
      [.alloc 9, .free ⟨4128, 9⟩]).map (fun s =>
        (decide (∀ offset, offset < 2 →
            8 + offset < sampleRegion.tblocks ∧ Free s.mem 4096 (8 + offset)),
          decide (∀ i, i < 8 → ¬ ∀ offset, offset < 2 →
            i + offset < sampleRegion.tblocks ∧
              Free s.mem 4096 (i + offset)))) = some (true, true) := by
    decide +kernel
  obtain ⟨s, ran, both⟩ := Option.map_eq_some_iff.mp observed
  rw [Prod.mk.injEq, decide_eq_true_iff, decide_eq_true_iff] at both
  obtain ⟨run, none⟩ := both
  have least : IsLeast {i | FirstFit.Run (Free s.mem sampleRegion.base)
      sampleRegion.tblocks i (divCeil 9 sampleRegion.bsize)} 8 :=
    ⟨run, fun i alsoRun => Nat.le_of_not_lt fun before => none i before alsoRun⟩
  exact ⟨s, ran, (bmAlloc_first_fit _ _ s 9 ⟨_, ran⟩ (by decide)).1 8 least⟩

end Pool
end Bitmap
end PivotOs
