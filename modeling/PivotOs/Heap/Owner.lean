import PivotOs.Heap.Chain
import PivotOs.Vmm.Release

/-!
# The region of a pointer

A pointer from `halloc` belongs to one region of the chain.  `hfree` and
`hrealloc` are to find that region and leave the others alone.  They do so
exactly when the region is the first one: in every round of their loops they
hand the first region to `bm_free` or `bm_realloc`.
-/

namespace PivotOs

open Bitmap

/-- `hfree` and `hrealloc` work on the region `owner` of the chain, leave the
regions around it as they are, and do not complain. -/
structure Bitmap.FindsOwner (mem : Memory) (before : List Bitmap)
    (owner : Bitmap) (after : List Bitmap) (ptr : Nat) : Prop where
  /-- `hfree` is `bm_free` on the owner. -/
  hfree_eq : hfree ptr mem (before ++ owner :: after) =
    ([], (bmFree mem ptr owner).2.1,
      before ++ (bmFree mem ptr owner).2.2 :: after)
  /-- `hrealloc` is `bm_realloc` on the owner, for every size. -/
  hrealloc_eq : ∀ size, hrealloc ptr size mem (before ++ owner :: after) =
    (bmRealloc mem ptr size owner).map fun new =>
      ([], new.1, new.2.1, before ++ new.2.2 :: after)

namespace Heap

/-- A VMM without regions. -/
def onVmm (space : Space) : Heap where
  space := space
  ranges := []
  chain := []

theorem onVmm_inv
    {level : VmmLevel} {maxPages : Nat} {start first : Space}
    (fits : level.base + maxPages * pageSize < 2 ^ 64)
    (initialised : start.initVmm level maxPages = some first) :
    Inv (level.window maxPages fits) (onVmm first) where
  paged := rfl
  vmm := (Space.initVmm_reachable fits initialised).inv
  listed := by simp [onVmm]
  apart := List.Pairwise.nil
  sound := by simp [onVmm]

/-- In every run of the clients, at either level, a live pointer is found in
its region exactly when no region stands before that region. -/
theorem findsOwner_iff
    (level : VmmLevel) (maxPages : Nat)
    (fits : level.base + maxPages * pageSize < 2 ^ 64)
    (start first : Space) (calls : List HeapCall) (last : Heap)
    (before after : List HeapRegion) (g : HeapRegion) (a : Allocation)
    (initialised : start.initVmm level maxPages = some first)
    (ran : Runs.run exec (onVmm first) calls = some last)
    (chain_eq : last.chain = before ++ g :: after)
    (live : a ∈ g.live) :
    FindsOwner last.space.mem (before.map HeapRegion.bm) g.bm
      (after.map HeapRegion.bm) a.ptr ↔ before = [] := by
  have inv := (onVmm_inv fits initialised).run ran
  constructor
  · intro finds
    cases before with
    | nil => rfl
    | cons other rest =>
        -- The first region refuses the pointer, and `hfree` warns.
        have outside := inv.outside_other chain_eq (by simp) live
        have quiet := congrArg Prod.fst finds.hfree_eq
        rw [List.map_cons, List.cons_append, hfree_of_outside outside] at quiet
        simp at quiet
  · rintro rfl
    obtain ⟨r, sound⟩ := inv.sound g (by simp [chain_eq])
    exact
      { hfree_eq := sound.hfree_eq live _
        hrealloc_eq := fun size => sound.hrealloc_eq live size _ }

/-- A region with an allocation in it. -/
def sampleCalls : List HeapCall := [.add 1 heapDefaultBs, .alloc 100]

theorem findsOwner_iff_sample :
    ∃ first last g,
      Client.sampleSpace.initVmm .supervisor 8 = some first ∧
      Runs.run exec (onVmm first) sampleCalls = some last ∧
      last.chain = [g] ∧ g.live = [⟨0xFFFF800000001070, 100⟩] ∧
      FindsOwner last.space.mem [] g.bm [] 0xFFFF800000001070 := by
  have observed : ((Client.sampleSpace.initVmm .supervisor 8).bind fun first =>
      Runs.run exec (onVmm first) sampleCalls).map
        (fun last => last.chain.map HeapRegion.live) =
      some [[⟨0xFFFF800000001070, 100⟩]] := by decide +kernel
  obtain ⟨last, both, chain⟩ := Option.map_eq_some_iff.mp observed
  obtain ⟨first, initialised, ran⟩ := Option.bind_eq_some_iff.mp both
  obtain ⟨g, single, live⟩ := List.map_eq_singleton_iff.mp chain
  refine ⟨first, last, g, initialised, ran, single, live, ?_⟩
  exact (findsOwner_iff .supervisor 8 (by decide) _ first sampleCalls last [] []
    g ⟨0xFFFF800000001070, 100⟩ initialised ran single (by simp [live])).mpr rfl

/-- With a second region in front, the allocation is found no longer. -/
theorem pointer_of_second_region_lost :
    ¬ ∀ (level : VmmLevel) (maxPages : Nat),
      level.base + maxPages * pageSize < 2 ^ 64 →
      ∀ (start first : Space) (calls : List HeapCall) (last : Heap)
        (before after : List HeapRegion) (g : HeapRegion) (a : Allocation),
      start.initVmm level maxPages = some first →
      Runs.run exec (onVmm first) calls = some last →
      last.chain = before ++ g :: after → a ∈ g.live →
        FindsOwner last.space.mem (before.map HeapRegion.bm) g.bm
          (after.map HeapRegion.bm) a.ptr := by
  intro always
  have observed : ((Client.sampleSpace.initVmm .supervisor 8).bind fun first =>
      Runs.run exec (onVmm first) (sampleCalls ++ [.add 1 heapDefaultBs])).map
        (fun last => (last.chain.map HeapRegion.live,
          (hfree 0xFFFF800000001070 last.space.mem
            (last.chain.map HeapRegion.bm)).1)) =
      some ([[], [⟨0xFFFF800000001070, 100⟩]], [unknownPointer]) := by
    decide +kernel
  obtain ⟨last, both, chain⟩ := Option.map_eq_some_iff.mp observed
  obtain ⟨first, initialised, ran⟩ := Option.bind_eq_some_iff.mp both
  obtain ⟨lives, warned⟩ := Prod.mk.inj chain
  obtain ⟨newer, rest, pair, -, single⟩ := List.map_eq_cons_iff.mp lives
  obtain ⟨g, rfl, live⟩ := List.map_eq_singleton_iff.mp single
  have finds := always .supervisor 8 (by decide) _ first _ last [newer] [] g
    ⟨0xFFFF800000001070, 100⟩ initialised ran pair (by simp [live])
  have quiet := congrArg Prod.fst finds.hfree_eq
  rw [pair] at warned
  exact List.cons_ne_nil _ _ (warned.symm.trans quiet)

end Heap
end PivotOs
