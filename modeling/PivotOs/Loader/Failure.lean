import PivotOs.Loader.Identity

/-!
# When a table cannot be allocated

`MapAddr` gives up where `AllocTable` fails, which may be inside a call that it
makes of itself to map a new table, with entries already linked at the outer
levels.  What is linked by then is empty, or maps new tables at their own
addresses, so no page is translated differently but those of the new tables.
-/

namespace PivotOs

open Paging

namespace Loader

/-- The frame was taken for a table in between. -/
structure NewTable (pml4 : Word) (s next : Loader) (table : Word) : Prop where
  /-- The firmware has handed it out. -/
  offered : some table ∈ s.pages
  /-- It has been handed out in between. -/
  taken : some table ∉ next.pages
  /-- It is part of the tree. -/
  isTable : next.IsTable pml4 table

/-- Every page is translated as before, or is that of a new table and translated
to itself. -/
def Harmless (pml4 : Word) (s next : Loader) : Prop :=
  ∀ address, mmu next.tables pml4 address = mmu s.tables pml4 address ∨
    ∃ table, NewTable pml4 s next table ∧ pageOf address = pageOf table ∧
      mmu next.tables pml4 address = some table

variable {pml4 : Word} {s next : Loader} {tables : List Word}

theorem Grew.newTable
    {touched : Set Nat} {table : Word}
    (grew : Grew pml4 tables touched s next)
    (member : table ∈ tables) :
    NewTable pml4 s next table where
  offered := grew.listed table member
  taken := grew.not_listed member
  isTable := (grew.isTable_iff table).mpr (.inr member)

/-- Growing without touching any page is harmless. -/
theorem Grew.harmless
    (sound : s.Sound pml4)
    (grew : Grew pml4 tables ∅ s next) :
    Harmless pml4 s next := by
  intro address
  rw [mmu_eq, mmu_eq]
  by_cases own : ∃ table ∈ tables, pageOf address = pageOf table
  · obtain ⟨table, member, same⟩ := own
    rw [leafAt_eq_of_pageOf_eq (s := next) same,
      leafAt_eq_of_pageOf_eq (s := s) same]
    rcases grew.leaf_table table member (Set.notMem_empty _) with leaf | leaf
    · refine .inr ⟨table, grew.newTable member, same, ?_⟩
      rw [leaf]
      exact (sound.paged table (grew.listed table member)).next_eq
    · exact .inl (by rw [leaf])
  · have other : ∀ table ∈ tables, pageOf address ≠ pageOf table :=
      fun table member same => own ⟨table, member, same⟩
    left
    rw [grew.leaf_other address (Set.notMem_empty _) other]

/-- A call of `MapAddr` that returns an error has seen `AllocTable` fail, leaves
a well-formed tree, and changes no translation but those of new tables. -/
theorem mapAddr_harmless_of_error
    (sound : s.Sound pml4)
    (physAddr virtAddr : Word)
    (failed : (mapAddr physAddr virtAddr pml4 s).1 = .error) :
    s.failures < (mapAddr physAddr virtAddr pml4 s).2.failures ∧
      (mapAddr physAddr virtAddr pml4 s).2.Sound pml4 ∧
      Harmless pml4 s (mapAddr physAddr virtAddr pml4 s).2 := by
  refine ⟨(mapAddr_counts s physAddr virtAddr).counted failed,
    mapAddr_sound sound physAddr virtAddr, ?_⟩
  obtain ⟨tables, ⟨-, grew⟩ | ⟨success, -⟩⟩ :=
    mapAddr_maps sound physAddr virtAddr
  · exact grew.harmless sound
  · rw [failed] at success
    cases success

end Loader

/-- A firmware with six pages: four for `ConfigurePaging`, and one too few for a
page in the higher half. -/
def scarceLoader : Loader :=
  { sampleLoader with pages := sampleLoader.pages.take 6 }

theorem scarceLoader_firmware : scarceLoader.Firmware 0x200000#64 where
  paged := fun table member =>
    sampleLoader_firmware.paged table (List.mem_of_mem_take member)
  fresh := fun member =>
    sampleLoader_firmware.fresh (List.mem_of_mem_take member)
  once := by decide

theorem mapAddr_harmless_of_error_scarce :
    let s := (Loader.configurePaging 0x200000#64 scarceLoader).2
    let result := Loader.mapAddr 0x300000#64 (vaddr 0x300000#64) 0x200000#64 s
    result.1 = .error ∧ s.pages.length = 2 ∧ result.2.pages.length = 0 ∧
      result.2.Sound 0x200000#64 ∧
      Loader.Harmless 0x200000#64 s result.2 := by
  intro s result
  have failed : result.1 = .error := by decide +kernel
  obtain ⟨-, sound, harmless⟩ := Loader.mapAddr_harmless_of_error
    (Loader.configurePaging_sound scarceLoader_firmware) 0x300000#64
    (vaddr 0x300000#64) failed
  exact ⟨failed, by decide +kernel, by decide +kernel, sound, harmless⟩

end PivotOs
