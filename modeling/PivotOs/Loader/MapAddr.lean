import PivotOs.Loader.Grown

/-!
# `MapAddr`

The loader's `MapAddr` makes the tables it needs from pages of the firmware
and maps each of them at its own address before it goes on.  On an error it
stops where it is.  Either way the tables keep their places, and pages that are
mapped at their own addresses stay so, as long as every page is mapped at its
own address.
-/

namespace PivotOs

open Paging

namespace Loader

/-- The processor finds the page of an address at the address itself. -/
def IdentityMapped (s : Loader) (pml4 address : Word) : Prop :=
  mmu s.tables pml4 address = some (alignAddr address)

/-- What identity mappings do to a loader. -/
structure Extends (pml4 : Word) (s next : Loader) : Prop where
  /-- The tree is well formed. -/
  sound : next.Sound pml4
  /-- Tables keep their places. -/
  keeps : ∀ path table, path.length < 4 →
    s.nodeAt pml4 path = some table → next.nodeAt pml4 path = some table
  /-- Pages that are mapped at their own addresses stay so. -/
  identity : ∀ address, address.toNat < 2 ^ 47 →
    s.IdentityMapped pml4 address → next.IdentityMapped pml4 address

/-- The promise of a call of `MapAddr`: it stops with an error and has mapped
nothing but tables, or it has mapped the page. -/
def Maps (pml4 physAddr virtAddr : Word) (s : Loader)
    (result : EfiStatus × Loader) : Prop :=
  ∃ tables,
    (result.1 = .error ∧ Grew pml4 tables ∅ s result.2) ∨
      (result.1 = .success ∧
        Grew pml4 tables {pageOf virtAddr} s result.2 ∧
        result.2.leafAt pml4 virtAddr = physAddr ||| kernelPtEntry)

variable {pml4 : Word} {s next last : Loader}

namespace Extends

@[refl] theorem refl (sound : s.Sound pml4) : Extends pml4 s s where
  sound := sound
  keeps := fun _ _ _ => id
  identity := fun _ _ => id

theorem trans
    (first : Extends pml4 s next)
    (second : Extends pml4 next last) :
    Extends pml4 s last where
  sound := second.sound
  keeps := fun path table short found =>
    second.keeps path table short (first.keeps path table short found)
  identity := fun address low mapped =>
    second.identity address low (first.identity address low mapped)

/-- It is enough that the pages that were touched are mapped at their own
addresses. -/
theorem of_grew
    {tables : List Word} {touched : Set Nat}
    (sound : s.Sound pml4)
    (grew : Grew pml4 tables touched s next)
    (own : ∀ address, address.toNat < 2 ^ 47 → pageOf address ∈ touched →
      next.IdentityMapped pml4 address) :
    Extends pml4 s next where
  sound := grew.sound
  keeps := grew.keeps
  identity := by
    intro address low mapped
    by_cases inside : pageOf address ∈ touched
    · exact own address low inside
    by_cases new : ∃ table ∈ tables, pageOf address = pageOf table
    · obtain ⟨table, member, same⟩ := new
      have page := sound.paged table (grew.listed table member)
      rw [IdentityMapped, mmu_eq, leafAt_eq_of_pageOf_eq same] at mapped ⊢
      rcases grew.leaf_table table member (same ▸ inside) with self | kept
      · rw [self, page.next_eq, page.alignAddr_eq low same]
      · rw [kept, mapped]
    · rw [IdentityMapped, mmu_eq] at mapped ⊢
      rw [grew.leaf_other address inside fun table member same =>
        new ⟨table, member, same⟩, mapped]

end Extends

/-- A page whose last entry leads to it is mapped at its own address. -/
theorem IdentityMapped.of_leafAt
    {page address : Word}
    (lowPage : LowPage page)
    (low : address.toNat < 2 ^ 47)
    (same : pageOf address = pageOf page)
    (mapped : s.leafAt pml4 page = page ||| kernelPtEntry) :
    s.IdentityMapped pml4 address := by
  rw [IdentityMapped, mmu_eq, leafAt_eq_of_pageOf_eq same, mapped,
    lowPage.next_eq, lowPage.alignAddr_eq low same]

namespace Maps

variable {physAddr virtAddr page : Word} {result : EfiStatus × Loader}

/-- A call that does not fail has mapped the page. -/
theorem of_success
    (maps : Maps pml4 physAddr virtAddr s result)
    (success : result.1 = .success) :
    ∃ tables, Grew pml4 tables {pageOf virtAddr} s result.2 ∧
      result.2.leafAt pml4 virtAddr = physAddr ||| kernelPtEntry := by
  obtain ⟨tables, ⟨error, -⟩ | ⟨-, mapped⟩⟩ := maps
  · rw [error] at success
    contradiction
  · exact ⟨tables, mapped⟩

/-- Either way nothing but the page and new tables is mapped. -/
theorem grew (maps : Maps pml4 physAddr virtAddr s result) :
    ∃ tables, Grew pml4 tables {pageOf virtAddr} s result.2 := by
  obtain ⟨tables, ⟨-, grew⟩ | ⟨-, grew, -⟩⟩ := maps
  · exact ⟨tables, grew.mono (Set.empty_subset _)⟩
  · exact ⟨tables, grew⟩

/-- A page mapped at its own address. -/
theorem identity
    (sound : s.Sound pml4)
    (lowPage : LowPage page)
    (maps : Maps pml4 page page s result) :
    Extends pml4 s result.2 ∧
      (result.1 = .success → result.2.IdentityMapped pml4 page) := by
  obtain ⟨tables, ⟨error, grew⟩ | ⟨-, grew, mapped⟩⟩ := maps
  · refine ⟨Extends.of_grew sound grew fun _ _ inside => inside.elim, ?_⟩
    intro success
    rw [error] at success
    contradiction
  · refine ⟨Extends.of_grew sound grew fun address low same => ?_, fun _ => ?_⟩
    · exact IdentityMapped.of_leafAt lowPage low same mapped
    · exact IdentityMapped.of_leafAt lowPage lowPage.low rfl mapped

end Maps

/-! ## The walk -/

/-- An entry that leads on points to the masked address. -/
theorem nodeAt_eq_masked
    {table : Word} {index : Fin 512} {path : List (Fin 512)}
    (found : s.nodeAt pml4 path = some table)
    (present : (s.nodeAt pml4 (index :: path)).isSome) :
    s.nodeAt pml4 (index :: path) =
      some (s.tables table index &&& signMask) := by
  obtain ⟨child, reached⟩ := Option.isSome_iff_exists.mp present
  have points : tableLinks.next (s.tables table index) = some child := by
    rw [← RadixTree.nodeAt_cons_of_some found]
    exact reached
  rw [reached, next_eq_some points]

/-- What one of the three tests of `MapAddr` may do. -/
theorem ensure_cases
    (identity : Word → Loader → EfiStatus × Loader) (table : Word)
    (index : Fin 512) (s : Loader) :
    (s.tables table index &&& 1#64 ≠ 0#64 ∧
        ensure identity table index s = (.success, s)) ∨
      s.tables table index &&& 1#64 = 0#64 ∧
        ((∃ pages, pages.Sublist s.pages ∧
            ensure identity table index s =
              (.error, { s with
                pages := pages
                failures := s.failures + 1 })) ∨
          ∃ new pages, s.pages = some new :: pages ∧
            ensure identity table index s =
              identity new
                { s with
                  tables := RadixTree.write
                    (RadixTree.clear tableLinks s.tables new) table index
                    (new ||| kernelPtEntry)
                  pages := pages }) := by
  by_cases missing : s.tables table index &&& 1#64 = 0#64
  · refine Or.inr ⟨missing, ?_⟩
    rw [ensure, if_pos missing, allocTable]
    cases pages_eq : s.pages with
    | nil => exact Or.inl ⟨[], List.Sublist.refl _, rfl⟩
    | cons answer pages =>
        cases answer with
        | none => exact Or.inl ⟨pages, List.sublist_cons_self _ _, rfl⟩
        | some new => exact Or.inr ⟨new, pages, rfl, rfl⟩
  · refine Or.inl ⟨missing, ?_⟩
    rw [ensure, if_neg missing]

/-- `MapAddr` stops at the first level that fails, or writes the last entry
after the third. -/
theorem mapAddrWith_cases
    (identity : Word → Loader → EfiStatus × Loader)
    (physAddr virtAddr pml4 : Word) (s : Loader) :
    (∃ s1, ensure identity pml4 (p4Entry virtAddr) s = (.error, s1) ∧
        mapAddrWith identity physAddr virtAddr pml4 s = (.error, s1)) ∨
      ∃ s1, ensure identity pml4 (p4Entry virtAddr) s = (.success, s1) ∧
        let p3Tbl := s1.tables pml4 (p4Entry virtAddr) &&& signMask
        (∃ s2, ensure identity p3Tbl (p3Entry virtAddr) s1 = (.error, s2) ∧
            mapAddrWith identity physAddr virtAddr pml4 s = (.error, s2)) ∨
          ∃ s2, ensure identity p3Tbl (p3Entry virtAddr) s1 = (.success, s2) ∧
            let p2Tbl := s2.tables p3Tbl (p3Entry virtAddr) &&& signMask
            (∃ s3, ensure identity p2Tbl (p2Entry virtAddr) s2 =
                  (.error, s3) ∧
                mapAddrWith identity physAddr virtAddr pml4 s =
                  (.error, s3)) ∨
              ∃ s3, ensure identity p2Tbl (p2Entry virtAddr) s2 =
                  (.success, s3) ∧
                let p1Tbl := s3.tables p2Tbl (p2Entry virtAddr) &&& signMask
                mapAddrWith identity physAddr virtAddr pml4 s =
                  (.success, s3.store p1Tbl (p1Entry virtAddr)
                    (physAddr ||| kernelPtEntry)) := by
  rw [mapAddrWith]
  rcases ensure identity pml4 (p4Entry virtAddr) s with ⟨_ | _, s1⟩
  · refine Or.inr ⟨s1, rfl, ?_⟩
    simp only
    rcases ensure identity (s1.tables pml4 (p4Entry virtAddr) &&& signMask)
      (p3Entry virtAddr) s1 with ⟨_ | _, s2⟩
    · refine Or.inr ⟨s2, rfl, ?_⟩
      simp only
      rcases ensure identity (s2.tables (s1.tables pml4 (p4Entry virtAddr) &&&
        signMask) (p3Entry virtAddr) &&& signMask) (p2Entry virtAddr) s2
        with ⟨_ | _, s3⟩
      · exact Or.inr ⟨s3, rfl, rfl⟩
      · exact Or.inl ⟨s3, rfl, rfl⟩
    · exact Or.inl ⟨s2, rfl, rfl⟩
  · exact Or.inl ⟨s1, rfl, rfl⟩

section Walk

variable {identity : Word → Loader → EfiStatus × Loader}
variable
  (maps : ∀ table s, s.Sound pml4 → Maps pml4 table table s (identity table s))
include maps

/-- One level of the walk ends at the table of its entry, or with an error. -/
theorem ensure_grew
    {table : Word} {index : Fin 512} {path : List (Fin 512)}
    (sound : s.Sound pml4)
    (found : s.nodeAt pml4 path = some table)
    (inner : path.length + 1 < 4)
    {status : EfiStatus}
    (ran : ensure identity table index s = (status, next)) :
    (∃ tables, Grew pml4 tables ∅ s next) ∧
      (status = .success → next.nodeAt pml4 (index :: path) =
        some (next.tables table index &&& signMask)) := by
  have step := RadixTree.nodeAt_cons_of_some (i := index) found
  obtain ⟨present, eq⟩ | ⟨missing, failed | hanging⟩ :=
    ensure_cases identity table index s
  · obtain ⟨rfl, rfl⟩ := Prod.mk.inj (eq.symm.trans ran)
    refine ⟨⟨[], Grew.refl sound⟩, fun _ => step.trans ?_⟩
    exact if_neg present
  · obtain ⟨pages, fewer, eq⟩ := failed
    obtain ⟨rfl, rfl⟩ := Prod.mk.inj (eq.symm.trans ran)
    exact ⟨⟨[], Grew.of_pages sound fewer⟩, fun wrong => by cases wrong⟩
  · obtain ⟨new, pages, pages_eq, eq⟩ := hanging
    have absent : s.nodeAt pml4 (index :: path) = none :=
      step.trans (next_eq_none_iff.mpr missing)
    have hung := fun touched : Set Nat =>
      hang_grew touched sound pages_eq found inner absent rfl
    have placed := (hung ∅).2
    have mapped := maps new _ (hung ∅).1.sound
    rw [← eq, ran] at mapped
    -- The page that the call maps is the new table's own.
    have grown : ∃ tables, Grew pml4 tables ∅ s next ∧
        next.nodeAt pml4 (index :: path) = some new := by
      obtain ⟨tables, ⟨-, grew⟩ | ⟨-, grew, self⟩⟩ := mapped
      · exact ⟨_, (hung ∅).1.trans sound grew,
          grew.keeps (index :: path) new inner placed⟩
      · have both := (hung {pageOf new}).1.trans sound grew
        rw [← insert_empty_eq (pageOf new)] at both
        exact ⟨_, both.settle sound
          (List.mem_append_right _ (List.mem_singleton_self new)) self,
          grew.keeps (index :: path) new inner placed⟩
    obtain ⟨tables, grew, there⟩ := grown
    refine ⟨⟨tables, grew⟩, fun _ => nodeAt_eq_masked ?_ ?_⟩
    · exact grew.keeps path table (by omega) found
    · rw [there]
      rfl

/-- `MapAddr` stops with an error, or finds the table of its page and writes
the last entry there. -/
theorem mapAddrWith_maps
    (sound : s.Sound pml4)
    (physAddr virtAddr : Word) :
    Maps pml4 physAddr virtAddr s
      (mapAddrWith identity physAddr virtAddr pml4 s) := by
  have root : s.nodeAt pml4 [] = some pml4 := rfl
  obtain ⟨s1, first, eq⟩ | ⟨s1, first, rest⟩ :=
    mapAddrWith_cases identity physAddr virtAddr pml4 s
  all_goals
    obtain ⟨⟨tables1, grew1⟩, found1⟩ :=
      ensure_grew maps sound root (by decide) first
  · exact ⟨tables1, Or.inl ⟨by rw [eq], by rwa [eq]⟩⟩
  obtain ⟨s2, second, eq⟩ | ⟨s2, second, rest⟩ := rest
  all_goals
    obtain ⟨⟨tables2, grew2⟩, found2⟩ :=
      ensure_grew maps grew1.sound (found1 rfl) (by simp) second
    have grew12 := grew1.trans sound grew2
  · exact ⟨_, Or.inl ⟨by rw [eq], by rwa [eq]⟩⟩
  obtain ⟨s3, third, eq⟩ | ⟨s3, third, eq⟩ := rest
  all_goals
    obtain ⟨⟨tables3, grew3⟩, found3⟩ :=
      ensure_grew maps grew2.sound (found2 rfl) (by simp) third
    have grew123 := grew12.trans sound grew3
  · exact ⟨_, Or.inl ⟨by rw [eq], by rwa [eq]⟩⟩
  · obtain ⟨stored, mapped⟩ := store_grew virtAddr (physAddr ||| kernelPtEntry)
      grew3.sound (found3 rfl)
    have grew := (grew123.mono (Set.empty_subset _)).trans sound stored
    rw [eq]
    exact ⟨_, Or.inr ⟨rfl, grew, mapped⟩⟩

end Walk

/-- The induction is on the depth of the recursion. -/
theorem mapAddrFuel_maps
    (fuel : Nat)
    (sound : s.Sound pml4)
    (physAddr virtAddr : Word) :
    Maps pml4 physAddr virtAddr s
      (mapAddrFuel fuel physAddr virtAddr pml4 s) := by
  induction fuel generalizing physAddr virtAddr s with
  | zero => exact ⟨[], Or.inl ⟨rfl, Grew.refl sound⟩⟩
  | succ fuel inductionHypothesis =>
      rw [mapAddrFuel]
      exact mapAddrWith_maps
        (fun table _ sound => inductionHypothesis sound table table)
        sound physAddr virtAddr

/-- What a call of `MapAddr` does. -/
theorem mapAddr_maps
    (sound : s.Sound pml4)
    (physAddr virtAddr : Word) :
    Maps pml4 physAddr virtAddr s (mapAddr physAddr virtAddr pml4 s) :=
  mapAddrFuel_maps _ sound physAddr virtAddr

/-- `MapAddr` of a page at its own address. -/
theorem mapAddr_identity
    {page : Word}
    (sound : s.Sound pml4)
    (lowPage : LowPage page) :
    Extends pml4 s (mapAddr page page pml4 s).2 ∧
      ((mapAddr page page pml4 s).1 = .success →
        (mapAddr page page pml4 s).2.IdentityMapped pml4 page) :=
  (mapAddr_maps sound page page).identity sound lowPage

/-- Any call of `MapAddr` leaves a tree. -/
theorem mapAddr_sound
    (sound : s.Sound pml4)
    (physAddr virtAddr : Word) :
    (mapAddr physAddr virtAddr pml4 s).2.Sound pml4 := by
  obtain ⟨tables, grew⟩ := (mapAddr_maps sound physAddr virtAddr).grew
  exact grew.sound

/-! ## Errors -/

/-- Answers of the firmware are used up and failures are counted, and an error
comes with a failure. -/
structure Counts (s : Loader) (status : EfiStatus) (next : Loader) : Prop where
  /-- No answer comes back. -/
  pages_le : next.pages.length ≤ s.pages.length
  /-- Failures stay counted. -/
  failures_le : s.failures ≤ next.failures
  /-- An error has been counted. -/
  counted : status = .error → s.failures < next.failures

namespace Counts

variable {status : EfiStatus}

theorem refl (s : Loader) : Counts s .success s :=
  ⟨le_rfl, le_rfl, fun wrong => by cases wrong⟩

/-- A step after a success. -/
theorem trans
    (first : Counts s .success next)
    (second : Counts next status last) :
    Counts s status last where
  pages_le := second.pages_le.trans first.pages_le
  failures_le := first.failures_le.trans second.failures_le
  counted := fun error => first.failures_le.trans_lt (second.counted error)

/-- Without new failures there was no error. -/
theorem success
    (counts : Counts s status next)
    (enough : next.failures = s.failures) :
    status = .success := by
  cases status with
  | success => rfl
  | error => exact absurd enough (counts.counted rfl).ne'

end Counts

section Counting

variable {identity : Word → Loader → EfiStatus × Loader} {bound : Nat}
variable
  (counts : ∀ table s, s.pages.length < bound →
    Counts s (identity table s).1 (identity table s).2)
include counts

theorem ensure_counts
    (few : s.pages.length ≤ bound)
    (table : Word) (index : Fin 512)
    {status : EfiStatus}
    (ran : ensure identity table index s = (status, next)) :
    Counts s status next := by
  obtain ⟨-, eq⟩ | ⟨-, ⟨pages, fewer, eq⟩ | ⟨new, pages, pages_eq, eq⟩⟩ :=
    ensure_cases identity table index s
  · obtain ⟨rfl, rfl⟩ := Prod.mk.inj (eq.symm.trans ran)
    exact Counts.refl s
  · obtain ⟨rfl, rfl⟩ := Prod.mk.inj (eq.symm.trans ran)
    exact ⟨fewer.length_le, Nat.le_succ _, fun _ => Nat.lt_succ_self _⟩
  · have length : s.pages.length = pages.length + 1 := by
      rw [pages_eq, List.length_cons]
    have inner := counts new
      { s with
        tables := RadixTree.write (RadixTree.clear tableLinks s.tables new)
          table index (new ||| kernelPtEntry)
        pages := pages } (by simp only; omega)
    rw [← eq, ran] at inner
    exact ⟨by have := inner.pages_le; simp only at this; omega,
      inner.failures_le, inner.counted⟩

theorem mapAddrWith_counts
    (few : s.pages.length ≤ bound)
    (physAddr virtAddr : Word) :
    Counts s (mapAddrWith identity physAddr virtAddr pml4 s).1
      (mapAddrWith identity physAddr virtAddr pml4 s).2 := by
  obtain ⟨s1, first, eq⟩ | ⟨s1, first, rest⟩ :=
    mapAddrWith_cases identity physAddr virtAddr pml4 s
  · rw [eq]
    exact ensure_counts counts few _ _ first
  have counts1 := ensure_counts counts few _ _ first
  have few1 := counts1.pages_le.trans few
  obtain ⟨s2, second, eq⟩ | ⟨s2, second, rest⟩ := rest
  · rw [eq]
    exact counts1.trans (ensure_counts counts few1 _ _ second)
  have counts2 := counts1.trans (ensure_counts counts few1 _ _ second)
  have few2 := counts2.pages_le.trans few
  obtain ⟨s3, third, eq⟩ | ⟨s3, third, eq⟩ := rest
  · rw [eq]
    exact counts2.trans (ensure_counts counts few2 _ _ third)
  rw [eq]
  have counts3 := counts2.trans (ensure_counts counts few2 _ _ third)
  exact ⟨counts3.pages_le, counts3.failures_le, fun wrong => by cases wrong⟩

end Counting

/-- The recursion never gets deeper than there are answers. -/
theorem mapAddrFuel_counts
    {fuel : Nat}
    (few : s.pages.length < fuel)
    (physAddr virtAddr : Word) :
    Counts s (mapAddrFuel fuel physAddr virtAddr pml4 s).1
      (mapAddrFuel fuel physAddr virtAddr pml4 s).2 := by
  induction fuel generalizing physAddr virtAddr s with
  | zero => omega
  | succ fuel inductionHypothesis =>
      rw [mapAddrFuel]
      exact mapAddrWith_counts
        (fun table _ fewer => inductionHypothesis fewer table table)
        (Nat.le_of_lt_succ few) physAddr virtAddr

theorem mapAddr_counts (s : Loader) (physAddr virtAddr : Word) :
    Counts s (mapAddr physAddr virtAddr pml4 s).1
      (mapAddr physAddr virtAddr pml4 s).2 :=
  mapAddrFuel_counts (Nat.lt_succ_self _) physAddr virtAddr

theorem mapRange_counts (s : Loader) (phys virt : Word) (count : Nat) :
    Counts s (mapRange phys virt pml4 count s).1
      (mapRange phys virt pml4 count s).2 := by
  induction count with
  | zero => exact Counts.refl s
  | succ count inductionHypothesis =>
      rw [mapRange]
      rcases before : mapRange phys virt pml4 count s with ⟨status, middle⟩
      rw [before] at inductionHypothesis
      cases status with
      | error => exact inductionHypothesis
      | success => exact inductionHypothesis.trans (mapAddr_counts _ _ _)

end Loader
end PivotOs
