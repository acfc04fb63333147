import PivotOs.Bitmap.Exclusive

/-!
# Calls stay in their region

An allocator writes only bytes of its own region, and its invariant depends on
these bytes alone.  So allocators whose regions do not overlap can share one
memory.
-/

namespace PivotOs
namespace Bitmap

namespace Region

/-- The address is outside the region. -/
def Beyond (r : Region) (address : Nat) : Prop :=
  address < r.base ∨ r.base + r.size ≤ address

/-- The address is outside the blocks of the bitmap. -/
def BeyondBitmap (r : Region) (address : Nat) : Prop :=
  address < r.base ∨ r.base + r.reserved * r.bsize ≤ address

theorem reserved_mul_le (r : Region) : r.reserved * r.bsize ≤ r.size :=
  r.mul_bsize_le r.reserved_le

theorem Beyond.bitmap
    {r : Region} {address : Nat}
    (beyond : r.Beyond address) :
    r.BeyondBitmap address := by
  have inside := r.reserved_mul_le
  exact beyond.imp_right fun behind => by omega

theorem BeyondBitmap.bytes
    {r : Region} {address : Nat}
    (beyond : r.BeyondBitmap address) :
    address < r.base ∨ r.base + r.bitmapBytes ≤ address := by
  have bytes := r.bitmapBytes_le
  exact beyond.imp_right fun behind => by omega

end Region

/-- `bm_free` changes no byte, whatever it is given. -/
theorem bmFree_mem (mem : Memory) (ptr : Nat) (b : Bitmap) :
    (bmFree mem ptr b).2.1 = mem := by
  by_cases outside : b.outside ptr
  · rw [bmFree, if_pos outside]
  · rw [bmFree_of_inside mem outside]

namespace Pool

variable {r : Region} {s next : Pool} {address : Nat}

/-- The invariant depends on the bytes of the bitmap. -/
theorem Inv.of_agree
    {after : Memory}
    (inv : Inv r s)
    (agree : ∀ address, ¬ r.BeyondBitmap address →
      after address = s.mem address) :
    Inv r { s with mem := after } := by
  refine inv.of_keepsUsed rfl rfl rfl ?_ le_rfl (List.Sublist.refl _)
  apply KeepsUsed.of_agree
  intro address above below
  apply agree
  rintro (before | behind) <;> omega

/-- Ids are written into the bytes of the bitmap. -/
theorem setRun_bytes
    (mem : Memory) (id : BitVec 8)
    {start count : Nat}
    (inside : start + count ≤ r.tblocks)
    (beyond : address < r.base ∨ r.base + r.bitmapBytes ≤ address) :
    setRun mem r.base start id count address = mem address := by
  apply setRun_apply_of_outside mem id (r.row_fits inside)
  intro block _ below here
  simp only [Region.bitmapBytes] at beyond
  rcases beyond with before | behind <;> omega

theorem setRun_confined
    (mem : Memory) (id : BitVec 8)
    {start count : Nat}
    (inside : start + count ≤ r.tblocks)
    (beyond : r.BeyondBitmap address) :
    setRun mem r.base start id count address = mem address :=
  setRun_bytes mem id inside beyond.bytes

theorem init_confined
    (prior : Memory)
    (beyond : r.BeyondBitmap address) :
    (init r prior).mem address = prior address := by
  have second : (0 : Nat) + r.reserved ≤ r.tblocks := by
    simpa using r.reserved_le
  rw [init_mem, setRun_confined _ _ second beyond]

theorem Inv.bmAlloc_bytes
    (inv : Inv r s)
    (size : Nat)
    (beyond : address < r.base ∨ r.base + r.bitmapBytes ≤ address) :
    (bmAlloc s.mem size s.record).2.1 address = s.mem address := by
  obtain null | ⟨block, fit, eq⟩ := Bitmap.bmAlloc_cases s.mem size s.record
  · rw [null]
  · rw [eq, inv.bm_eq]
    exact setRun_bytes _ _ (fit.end_le.trans inv.tblocks_eq.le) beyond

theorem Inv.bmAlloc_confined
    (inv : Inv r s)
    (size : Nat)
    (beyond : r.BeyondBitmap address) :
    (bmAlloc s.mem size s.record).2.1 address = s.mem address :=
  inv.bmAlloc_bytes size beyond.bytes

/-- No call writes outside its region. -/
theorem exec_confined
    {call : Call}
    (inv : Inv r s)
    (stepped : s.exec call = some next)
    (beyond : r.Beyond address) :
    next.mem address = s.mem address := by
  cases call with
  | alloc size =>
      obtain rfl := Option.some.inj stepped
      exact inv.bmAlloc_confined size beyond.bitmap
  | free a =>
      obtain ⟨-, rfl⟩ := exec_free stepped
      simp only [bmFree_mem]
  | realloc a size =>
      obtain ⟨oldBlock, block, mem, record, after, eq, -, -, copied, rfl⟩ :=
        inv.exec_realloc_cases stepped
      have new := inv.bmAlloc_confined size beyond.bitmap
      rw [eq] at new
      exact (copied address beyond).trans new
  | store other byte =>
      obtain ⟨⟨a, member, lower, upper⟩, rfl⟩ := exec_store stepped
      obtain ⟨block, placed⟩ := inv.placed a member
      have start := placed.reserved_le_ptr
      have stop := placed.end_le_region
      rw [inv.bsize_eq] at upper
      apply Memory.write_other
      rcases beyond with before | behind <;> omega

end Pool
end Bitmap
end PivotOs
