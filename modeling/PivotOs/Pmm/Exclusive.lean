import PivotOs.Pmm.Init
import PivotOs.Library.Runs

/-!
# Exclusive frames

From the bitmap that `init_pmm` leaves, callers take frames with `alloc_frame`
and give them back with `pmm_clear_bit`.  Clear bits always name frames of the
areas that `init_pmm` cleared, and the bits of frames in callers' hands are
set, so no frame is handed out twice.
-/

namespace PivotOs

/-- A memory map of page-aligned descriptors that end inside `mem_pages`
pages, few enough for the row counter of `pmm_request_frame`. -/
structure BootMemory where
  /-- The memory map. -/
  map : MemoryMap
  /-- `KMEM.mem_pages`. -/
  memPages : Nat
  /-- Descriptors start at pages. -/
  aligned : ∀ i, i < map.entries →
    (map.desc i).physicalStart.toNat % 4096 = 0
  /-- Descriptors end inside the memory. -/
  ends : ∀ i, i < map.entries →
    (map.desc i).physicalStart.toNat + (map.desc i).count.toNat * 4096 ≤
      memPages * 4096
  /-- `KMEM.bitmap_entries` is at most 65535. -/
  rows : (memPages + 63) / 64 ≤ 65535

namespace BootMemory

/-- The bitmap as `ParseMMAP` allocates it, whatever its memory holds. -/
def blank (boot : BootMemory) (prior : Nat → Word) : Pmm where
  bitmap := prior
  bitmapEntries := (boot.memPages + 63) / 64
  memPages := boot.memPages

/-- The bitmap after `init_pmm`. -/
def pmm (boot : BootMemory) (prior : Nat → Word) : Pmm :=
  (boot.blank prior).initPmm boot.map

@[simp] theorem pmm_bitmapEntries (boot : BootMemory) (prior : Nat → Word) :
    (boot.pmm prior).bitmapEntries = (boot.memPages + 63) / 64 :=
  Pmm.initPmm_bitmapEntries boot.map

@[simp] theorem pmm_memPages (boot : BootMemory) (prior : Nat → Word) :
    (boot.pmm prior).memPages = boot.memPages :=
  Pmm.initPmm_memPages boot.map

/-- Frames of cleared areas lie in the memory. -/
theorem lt_memPages
    (boot : BootMemory)
    {k : Nat}
    (cleared : boot.map.Clears k) :
    k < boot.memPages := by
  obtain ⟨i, inside, -, covers⟩ := cleared
  have ends := boot.ends i inside
  have aligned := boot.aligned i inside
  unfold MmapDesc.Covers frameOf pageSize at covers
  omega

/-- `init_pmm` leaves clear exactly the bits of the usable areas, frame 0
apart. -/
theorem used_pmm_iff
    (boot : BootMemory) (prior : Nat → Word)
    {k : Nat}
    (inside : k / 64 < (boot.memPages + 63) / 64) :
    (boot.pmm prior).Used k ↔ ¬ (k ≠ 0 ∧ boot.map.Clears k) := by
  have rows := boot.rows
  rw [← MemoryMap.frees_iff boot.aligned boot.ends (by omega) k]
  exact Pmm.used_initPmm boot.map inside

end BootMemory

namespace Pmm

variable {m : Pmm}

/-! ## Callers that hold frames -/

/-- The bitmap and the frames in callers' hands. -/
structure Holders where
  /-- The bitmap. -/
  pmm : Pmm
  /-- Frames returned by `alloc_frame` and not yet cleared. -/
  held : List Word

/-- What a caller may do. -/
inductive FrameCall
  | alloc
  | clear (address : Word)

namespace Holders

/-- Carry out one call.  Only frames that are held may be cleared. -/
def exec (s : Holders) : FrameCall → Option Holders
  | .alloc =>
      s.pmm.allocFrame.map fun result =>
        { pmm := result.2
          held := if result.1 = 0#64 then s.held else result.1 :: s.held }
  | .clear address =>
      if address ∈ s.held then
        some
          { pmm := s.pmm.pmmClearBit address
            held := s.held.erase address }
      else none

/-- The states that the calls lead to from `init_pmm`. -/
def Reachable (boot : BootMemory) (prior : Nat → Word) (s : Holders) : Prop :=
  ∃ calls, Runs.run exec { pmm := boot.pmm prior, held := [] } calls = some s

variable {boot : BootMemory} {s : Holders}

/-- What holds of every reachable state. -/
structure Inv (boot : BootMemory) (s : Holders) : Prop where
  /-- The number of rows does not change. -/
  entries_eq : s.pmm.bitmapEntries = (boot.memPages + 63) / 64
  /-- The number of pages does not change. -/
  memPages_eq : s.pmm.memPages = boot.memPages
  /-- Frame 0 is never free. -/
  zero_used : ¬ s.pmm.Free 0
  /-- Free frames lie in the areas that `init_pmm` cleared. -/
  free_cleared : ∀ k, s.pmm.Free k → boot.map.Clears k
  /-- So do held frames. -/
  held_cleared : ∀ address ∈ s.held, boot.map.Clears (frameOf address)
  /-- Held frames are marked. -/
  held_used : ∀ address ∈ s.held, s.pmm.Used (frameOf address)
  /-- Held addresses are frames. -/
  held_aligned : ∀ address ∈ s.held, address.toNat % 4096 = 0
  /-- Frame 0 is never held. -/
  held_ne_zero : ∀ address ∈ s.held, address ≠ 0#64
  /-- No frame is held twice. -/
  held_nodup : s.held.Nodup

theorem Inv.marks (inv : Inv boot s) : s.pmm.Marks := by
  intro k free
  rw [inv.memPages_eq]
  exact (boot.lt_memPages (inv.free_cleared k free)).le

theorem init_inv (boot : BootMemory) (prior : Nat → Word) :
    Inv boot { pmm := boot.pmm prior, held := [] } := by
  have clear : ∀ k, (boot.pmm prior).Free k → k ≠ 0 ∧ boot.map.Clears k := by
    rintro k ⟨inside, unused⟩
    rw [BootMemory.pmm_bitmapEntries] at inside
    rw [boot.used_pmm_iff prior inside, not_not] at unused
    exact unused
  exact
    { entries_eq := boot.pmm_bitmapEntries prior
      memPages_eq := boot.pmm_memPages prior
      zero_used := fun free => (clear 0 free).1 rfl
      free_cleared := fun k free => (clear k free).2
      held_cleared := by simp
      held_used := by simp
      held_aligned := by simp
      held_ne_zero := by simp
      held_nodup := List.nodup_nil }

/-- A frame that `alloc_frame` takes is in nobody's hands. -/
theorem Inv.taken_not_held
    {address : Word} {next : Pmm}
    (inv : Inv boot s)
    (taken : s.pmm.Taken address next) :
    address ∉ s.held :=
  fun member => taken.free.2 (inv.held_used address member)

theorem Inv.alloc
    {next : Holders}
    (inv : Inv boot s)
    (stepped : s.exec .alloc = some next) :
    Inv boot next := by
  obtain ⟨⟨address, pmm⟩, result, rfl⟩ := Option.map_eq_some_iff.mp stepped
  rcases allocFrame_cases result with ⟨rfl, rfl, -⟩ | taken
  · simpa using inv
  · have marks := inv.marks
    simp only [if_neg taken.ne_zero]
    exact
      { entries_eq := taken.bitmapEntries_eq.trans inv.entries_eq
        memPages_eq := taken.memPages_eq.trans inv.memPages_eq
        zero_used := fun free =>
          inv.zero_used ((taken.free_iff marks 0).mp free).1
        free_cleared := fun k free =>
          inv.free_cleared k ((taken.free_iff marks k).mp free).1
        held_cleared := by
          intro other member
          rcases List.mem_cons.mp member with rfl | old
          · exact inv.free_cleared _ taken.free
          · exact inv.held_cleared other old
        held_used := by
          intro other member
          rw [taken.used_iff marks]
          rcases List.mem_cons.mp member with rfl | old
          · exact Or.inr rfl
          · exact Or.inl (inv.held_used other old)
        held_aligned := by
          intro other member
          rcases List.mem_cons.mp member with rfl | old
          · exact taken.aligned
          · exact inv.held_aligned other old
        held_ne_zero := by
          intro other member
          rcases List.mem_cons.mp member with rfl | old
          · exact taken.ne_zero
          · exact inv.held_ne_zero other old
        held_nodup :=
          List.nodup_cons.mpr ⟨inv.taken_not_held taken, inv.held_nodup⟩ }

theorem Inv.clear
    {address : Word} {next : Holders}
    (inv : Inv boot s)
    (stepped : s.exec (.clear address) = some next) :
    Inv boot next := by
  rw [exec] at stepped
  split at stepped
  · rename_i member
    obtain rfl := Option.some.inj stepped
    have notNull := inv.held_ne_zero address member
    have subset : ∀ other ∈ s.held.erase address, other ∈ s.held :=
      fun other => List.mem_of_mem_erase
    have freed : ∀ k, (s.pmm.pmmClearBit address).Free k →
        s.pmm.Free k ∨ k = frameOf address := by
      rintro k ⟨inside, unused⟩
      rw [pmmClearBit_bitmapEntries] at inside
      rw [used_pmmClearBit, not_and_or, not_not] at unused
      rcases unused with unused | ⟨-, same⟩
      · exact Or.inl ⟨inside, unused⟩
      · exact Or.inr same
    exact
      { entries_eq := (pmmClearBit_bitmapEntries address).trans inv.entries_eq
        memPages_eq := (pmmClearBit_memPages address).trans inv.memPages_eq
        zero_used := by
          intro free
          rcases freed 0 free with old | same
          · exact inv.zero_used old
          · apply notNull
            apply BitVec.eq_of_toNat_eq
            have aligned := inv.held_aligned address member
            unfold frameOf pageSize at same
            rw [BitVec.toNat_ofNat]
            omega
        free_cleared := by
          intro k free
          rcases freed k free with old | rfl
          · exact inv.free_cleared k old
          · exact inv.held_cleared address member
        held_cleared := fun other kept =>
          inv.held_cleared other (subset other kept)
        held_used := by
          intro other kept
          rw [used_pmmClearBit]
          refine ⟨inv.held_used other (subset other kept), ?_⟩
          rintro ⟨-, same⟩
          have equal := eq_of_frameOf_eq
            (inv.held_aligned other (subset other kept))
            (inv.held_aligned address member) same
          exact ((inv.held_nodup.mem_erase_iff).mp kept).1 equal
        held_aligned := fun other kept =>
          inv.held_aligned other (subset other kept)
        held_ne_zero := fun other kept =>
          inv.held_ne_zero other (subset other kept)
        held_nodup := inv.held_nodup.erase address }
  · simp at stepped

theorem Reachable.inv
    {prior : Nat → Word}
    (reachable : Reachable boot prior s) :
    Inv boot s := by
  obtain ⟨calls, ran⟩ := reachable
  refine Runs.run_invariant (Inv boot) ?_ (init_inv boot prior) ran
  intro state call next inv stepped
  cases call with
  | alloc => exact inv.alloc stepped
  | clear address => exact inv.clear stepped

/-- In every reachable state `alloc_frame` returns null, and then every bit is
set, or a non-null frame of an area `init_pmm` cleared that nobody holds; it
changes the bit of that frame and no other. -/
theorem allocFrame_exclusive
    (boot : BootMemory) (prior : Nat → Word) (s : Holders)
    (reachable : Reachable boot prior s) :
    ∃ address next, s.pmm.allocFrame = some (address, next) ∧
      ((address = 0#64 ∧ next = s.pmm ∧
          ∀ k, k < 64 * s.pmm.bitmapEntries → s.pmm.Used k) ∨
        (address ≠ 0#64 ∧ address.toNat % 4096 = 0 ∧
          boot.map.Clears (frameOf address) ∧ address ∉ s.held ∧
          ¬ s.pmm.Used (frameOf address) ∧
          ∀ k, next.Used k ↔ s.pmm.Used k ∨ k = frameOf address)) := by
  have inv := reachable.inv
  have rows := boot.rows
  have returns := allocFrame_isSome (m := s.pmm)
    (by rw [inv.entries_eq]; omega)
  obtain ⟨⟨address, next⟩, result⟩ := Option.isSome_iff_exists.mp returns
  refine ⟨address, next, result, ?_⟩
  rcases allocFrame_cases result with ⟨null, same, full | zero⟩ | taken
  · exact Or.inl ⟨null, same, fun k below => full k (by omega)⟩
  · exact absurd zero inv.zero_used
  · exact Or.inr ⟨taken.ne_zero, taken.aligned,
      inv.free_cleared _ taken.free, inv.taken_not_held taken, taken.free.2,
      taken.used_iff inv.marks⟩

/-- Five pages of memory, the frames 1 to 3 conventional. -/
def sampleBoot : BootMemory where
  map :=
    { descAt := fun offset =>
        if offset = 0 then
          { type := 7#32, physicalStart := 0x1000#64, count := 3#64 }
        else { type := 0#32, physicalStart := 0x4000#64, count := 1#64 }
      mmapSize := 96
      mmapDescSize := 48 }
  memPages := 5
  aligned := by decide
  ends := by decide
  rows := by decide

theorem allocFrame_exclusive_sample :
    ∃ s, Reachable sampleBoot (fun _ => 0#64) s ∧
      s.held = [0x2000#64] ∧
      ∃ address next, s.pmm.allocFrame = some (address, next) ∧
        ((address = 0#64 ∧ next = s.pmm ∧
            ∀ k, k < 64 * s.pmm.bitmapEntries → s.pmm.Used k) ∨
          (address ≠ 0#64 ∧ address.toNat % 4096 = 0 ∧
            sampleBoot.map.Clears (frameOf address) ∧ address ∉ s.held ∧
            ¬ s.pmm.Used (frameOf address) ∧
            ∀ k, next.Used k ↔ s.pmm.Used k ∨ k = frameOf address)) := by
  have ran : (Runs.run exec
      { pmm := sampleBoot.pmm fun _ => 0#64, held := [] }
      [.alloc, .alloc, .clear 0x1000#64]).map Holders.held =
        some [0x2000#64] := by decide +kernel
  obtain ⟨s, eq, held⟩ := Option.map_eq_some_iff.mp ran
  have reachable : Reachable sampleBoot (fun _ => 0#64) s :=
    ⟨[.alloc, .alloc, .clear 0x1000#64], eq⟩
  exact ⟨s, reachable, held, allocFrame_exclusive _ _ s reachable⟩

end Holders
end Pmm
end PivotOs
