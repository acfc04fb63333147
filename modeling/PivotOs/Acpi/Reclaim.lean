import PivotOs.Pmm.Init
import PivotOs.Logging

/-!
# The memory of the ACPI tables

When `init_acpi` has read the ACPI tables it gives their memory back: it looks
for a descriptor of type 9 in the memory map and clears its area.  After a map
without one it looks at what lies behind the map.
-/

namespace PivotOs

namespace MemoryMap

/-- The byte offset at which the loop of `init_acpi` stops: that of the first
descriptor of type 9, or the end of the map. -/
def acpiOffset (map : MemoryMap) : (entries offset : Nat) → Nat
  | 0, offset => offset
  | entries + 1, offset =>
      if (map.descAt offset).type = 9#32 then offset
      else acpiOffset map entries (offset + map.mmapDescSize)

/-- The descriptor that `init_acpi` looks at after its loop.  When the map has
none of type 9 this is what lies behind the map. -/
def acpiDesc (map : MemoryMap) : MmapDesc :=
  map.descAt (map.acpiOffset (map.mmapSize / map.mmapDescSize) 0)

/-- `init_acpi` clears the bit of frame `k`. -/
def Reclaims (map : MemoryMap) (k : Nat) : Prop :=
  map.acpiDesc.type = 9#32 ∧ map.acpiDesc.Frees k

variable {map : MemoryMap}

/-- The loop of `init_acpi` stops at a descriptor of type 9 of the map, when
there is one from where it starts. -/
theorem acpiOffset_of_exists
    (entries first : Nat)
    (some_acpi : ∃ i, first ≤ i ∧ i < first + entries ∧
      (map.desc i).type = 9#32) :
    ∃ i, i < first + entries ∧ (map.desc i).type = 9#32 ∧
      map.acpiOffset entries (first * map.mmapDescSize) =
        i * map.mmapDescSize := by
  induction entries generalizing first with
  | zero =>
      obtain ⟨i, after, before, -⟩ := some_acpi
      omega
  | succ entries inductionHypothesis =>
      rw [acpiOffset]
      split
      · rename_i here
        exact ⟨first, by omega, here, rfl⟩
      · rename_i other
        obtain ⟨i, after, before, acpi⟩ := some_acpi
        have behind : first ≠ i := by
          rintro rfl
          exact other acpi
        obtain ⟨j, inside, found, eq⟩ :=
          inductionHypothesis (first + 1) ⟨i, by omega, by omega, acpi⟩
        rw [Nat.succ_mul] at eq
        exact ⟨j, by omega, found, eq⟩

/-- In a map with a descriptor of type 9, one of these is freed. -/
theorem acpiDesc_of_exists
    (map : MemoryMap)
    (some_acpi : ∃ i, i < map.entries ∧ (map.desc i).type = 9#32) :
    ∃ i, i < map.entries ∧ map.acpiDesc = map.desc i ∧
      (map.desc i).type = 9#32 := by
  obtain ⟨i, listed, acpi⟩ := some_acpi
  obtain ⟨j, inside, found, eq⟩ := acpiOffset_of_exists map.entries 0
    ⟨i, Nat.zero_le i, by omega, acpi⟩
  rw [Nat.zero_mul] at eq
  rw [Nat.zero_add] at inside
  refine ⟨j, inside, ?_, found⟩
  exact congrArg map.descAt eq

/-- In a map without a descriptor of type 9 the loop of `init_acpi` comes to the
end. -/
theorem acpiOffset_of_missing
    (entries first : Nat)
    (missing : ∀ i, first ≤ i → i < first + entries →
      (map.desc i).type ≠ 9#32) :
    map.acpiOffset entries (first * map.mmapDescSize) =
      (first + entries) * map.mmapDescSize := by
  induction entries generalizing first with
  | zero => rfl
  | succ entries inductionHypothesis =>
      have other : (map.descAt (first * map.mmapDescSize)).type ≠ 9#32 :=
        missing first (Nat.le_refl _) (by omega)
      have rest := inductionHypothesis (first + 1) fun i after before =>
        missing i (by omega) (by omega)
      rw [Nat.succ_mul] at rest
      rw [acpiOffset, if_neg other, rest]
      congr 1
      omega

theorem acpiDesc_of_missing
    (missing : ∀ i, i < map.entries → (map.desc i).type ≠ 9#32) :
    map.acpiDesc = map.desc map.entries := by
  have stopped := acpiOffset_of_missing map.entries 0 fun i _ before =>
    missing i (by omega)
  rw [Nat.zero_mul, Nat.zero_add] at stopped
  exact congrArg map.descAt stopped

/-- Frame `k` is that of a page of a descriptor of type 9 of the map. -/
def Acpi (map : MemoryMap) (k : Nat) : Prop :=
  ∃ i, i < map.entries ∧ (map.desc i).type = 9#32 ∧
    ∃ page, page < (map.desc i).count.toNat ∧
      k = frameOf (Pmm.pageAddress (map.desc i).physicalStart page)

end MemoryMap

namespace Pmm

/-- The end of `init_acpi`. -/
def reclaimAcpi (m : Pmm) (map : MemoryMap) : Pmm :=
  if map.acpiDesc.type = 9#32 then
    m.pmmClearArea map.acpiDesc.physicalStart map.acpiDesc.count.toNat
  else m

variable {m : Pmm}

@[simp] theorem reclaimAcpi_bitmapEntries (map : MemoryMap) :
    (m.reclaimAcpi map).bitmapEntries = m.bitmapEntries := by
  unfold reclaimAcpi
  split
  · exact pmmClearArea_bitmapEntries _ _
  · rfl

theorem used_reclaimAcpi (map : MemoryMap) (k : Nat) :
    (m.reclaimAcpi map).Used k ↔ m.Used k ∧ ¬ map.Reclaims k := by
  unfold reclaimAcpi MemoryMap.Reclaims
  split
  · rename_i found
    rw [used_pmmClearArea]
    simp only [found, true_and]
    rfl
  · rename_i missing
    simp [missing]

/-! ## What is given back -/

/-- The warning about a map without the tables. -/
def acpiMissing : LogLine where
  level := .warning
  target := "ACPI"
  text := "Couldn't find a MMAP region for the ACPI tables"

/-- The end of `init_acpi`, with what it logs. -/
def reclaimStep (m : Pmm) (map : MemoryMap) : Pmm × List LogLine :=
  if map.acpiDesc.type = 9#32 then
    (m.pmmClearArea map.acpiDesc.physicalStart map.acpiDesc.count.toNat, [])
  else (m, [acpiMissing])

theorem reclaimStep_fst (m : Pmm) (map : MemoryMap) :
    (m.reclaimStep map).1 = m.reclaimAcpi map := by
  unfold reclaimStep reclaimAcpi
  split <;> rfl

/-- No other memory than that of the tables is given back, and a map without it
is reported. -/
structure ReclaimsOnlyAcpi (m : Pmm) (map : MemoryMap) : Prop where
  confined : ∀ k, m.Used k → ¬ (m.reclaimStep map).1.Used k → map.Acpi k
  warned : (∀ i, i < map.entries → (map.desc i).type ≠ 9#32) →
    m.reclaimStep map = (m, [acpiMissing])

/-- The reclaim step keeps to the tables exactly when the map has a descriptor
of type 9, or what follows the map does not read as one. -/
theorem reclaimsOnlyAcpi_iff (m : Pmm) (map : MemoryMap) :
    m.ReclaimsOnlyAcpi map ↔
      (∃ i, i < map.entries ∧ (map.desc i).type = 9#32) ∨
        (map.desc map.entries).type ≠ 9#32 := by
  by_cases some_acpi : ∃ i, i < map.entries ∧ (map.desc i).type = 9#32
  · refine ⟨fun _ => .inl some_acpi, fun _ => ⟨?_, ?_⟩⟩
    · intro k used cleared
      obtain ⟨i, inside, found, acpi⟩ := map.acpiDesc_of_exists some_acpi
      rw [reclaimStep_fst, used_reclaimAcpi] at cleared
      obtain ⟨-, page, below, -, same⟩ :=
        not_not.mp fun kept => cleared ⟨used, kept⟩
      rw [found] at below same
      exact ⟨i, inside, acpi, page, below, same⟩
    · intro missing
      obtain ⟨i, inside, acpi⟩ := some_acpi
      exact absurd acpi (missing i inside)
  · have missing : ∀ i, i < map.entries → (map.desc i).type ≠ 9#32 :=
      fun i inside acpi => some_acpi ⟨i, inside, acpi⟩
    have behind := MemoryMap.acpiDesc_of_missing missing
    constructor
    · intro only
      refine .inr fun acpi => ?_
      -- The warning is not logged when the test behind the map succeeds.
      have warned := only.warned missing
      rw [reclaimStep, behind, if_pos acpi] at warned
      exact absurd (congrArg Prod.snd warned) (List.cons_ne_nil _ _).symm
    · rintro (acpi | other)
      · exact absurd acpi some_acpi
      · have unchanged : m.reclaimStep map = (m, [acpiMissing]) := by
          rw [reclaimStep, behind, if_neg other]
        refine ⟨fun k used cleared => ?_, fun _ => unchanged⟩
        rw [unchanged] at cleared
        exact absurd used cleared

/-- A map of one descriptor of conventional memory.  The memory behind it holds
what reads as a descriptor of ten pages of type 9. -/
def mapBeforeAcpi : MemoryMap where
  descAt offset :=
    if offset < 48 then
      { type := 7#32, physicalStart := 0x100000#64, count := 16#64 }
    else { type := 9#32, physicalStart := 0x200000#64, count := 10#64 }
  mmapSize := 48
  mmapDescSize := 48

/-- Frames that are in no descriptor of the map are freed, without a warning. -/
theorem not_reclaimsOnlyAcpi_mapBeforeAcpi :
    (∀ i, i < mapBeforeAcpi.entries → (mapBeforeAcpi.desc i).type ≠ 9#32) ∧
      ∃ m : Pmm, m.Used 512 ∧ ¬ (m.reclaimStep mapBeforeAcpi).1.Used 512 ∧
        (m.reclaimStep mapBeforeAcpi).2 = [] := by
  refine ⟨by decide, ⟨fun _ => bitmapRowFull, 16, 1024⟩, ?_, ?_, rfl⟩
  · rfl
  · rw [reclaimStep_fst, used_reclaimAcpi]
    rintro ⟨-, kept⟩
    exact kept ⟨rfl, 0, by decide, by decide, by decide⟩

end Pmm

end PivotOs
