import PivotOs.Paging.MapAddr
import Mathlib.Logic.Relation

/-!
# The recursion of `map_addr`

A call of `map_addr` makes up to three calls of itself, each on a frame that
`alloc_frame` has just taken, or on null when there was none.  A call on null
returns at once; every other call finds fewer clear bits in the bitmap than
the call that made it.  So the recursion is well founded, and it is as deep as
there are clear bits at most.  The bound on the depth in the model is one that
no call reaches.
-/

namespace PivotOs

open Paging

namespace Pmm

variable {m next : Pmm}

/-- Every bit from `mem_pages` on is set, and the row counter of
`pmm_request_frame` gets past the last row. -/
structure Bounded (m : Pmm) : Prop where
  /-- The bits behind the memory. -/
  used : ∀ k, m.memPages ≤ k → k / 64 < m.bitmapEntries → m.Used k
  /-- The row counter has 16 bits. -/
  short : m.bitmapEntries ≤ 65535

/-- Number of clear bits in the rows of the bitmap. -/
def clearBits (m : Pmm) : Nat :=
  ((Finset.range (64 * m.bitmapEntries)).filter fun k => ¬ m.Used k).card

namespace Bounded

theorem marks (bounded : m.Bounded) : m.Marks := by
  intro k free
  by_contra above
  exact free.2 (bounded.used k (by omega) free.1)

theorem marked
    (bounded : m.Bounded)
    (marked : m.Marked next) :
    next.Bounded where
  used := by
    intro k above inside
    rw [marked.memPages_eq] at above
    rw [marked.entries_eq] at inside
    exact marked.used k (bounded.used k above inside)
  short := by
    rw [marked.entries_eq]
    exact bounded.short

/-- The rows are few enough for every clear bit to be found. -/
theorem clearBits_eq (bounded : m.Bounded) : m.clearBits = m.freeCount := by
  have short := bounded.short
  unfold clearBits freeCount
  refine congrArg Finset.card (Finset.ext fun k => ?_)
  rw [Finset.mem_filter, Finset.mem_filter, Finset.mem_range, Finset.mem_range,
    Free, bitmapRowBits_eq]
  constructor
  · rintro ⟨inside, clear⟩
    exact ⟨by omega, by omega, clear⟩
  · rintro ⟨-, inside, clear⟩
    exact ⟨by omega, clear⟩

end Bounded
end Pmm

namespace Machine

variable {s t next allocated : Machine}
  {identity wider : Word → Machine → Option Machine}
  {physical virtual flags p4Tbl table new : Word} {index : Fin 512}

/-! ## Calls -/

/-- A call of `map_addr` under some root. -/
structure AddrCall where
  /-- `physical`. -/
  physical : Word
  /-- `virtual`. -/
  virtual : Word
  /-- The state in which it is called. -/
  machine : Machine

/-- The call returns at once. -/
def AddrCall.Null (call : AddrCall) : Prop :=
  call.physical = 0#64 ∨ call.virtual = 0#64

/-- A call tests this entry of this table, in this state, when `identity` is
what it does to map a new table. -/
inductive Tests
    (identity : Word → Machine → Option Machine)
    (virtual p4Tbl : Word)
    (s : Machine) : Word → Fin 512 → Machine → Prop
  /-- The first level is reached at once. -/
  | first : Tests identity virtual p4Tbl s p4Tbl (p4Entry (alignAddr virtual)) s
  /-- The second level, behind the first. -/
  | second
      {p3Tbl : Word} {s1 : Machine}
      (first : descend identity p4Tbl (p4Entry (alignAddr virtual)) s =
        some (p3Tbl, s1)) :
      Tests identity virtual p4Tbl s p3Tbl (p3Entry (alignAddr virtual)) s1
  /-- The third level, behind the second. -/
  | third
      {p3Tbl p2Tbl : Word} {s1 s2 : Machine}
      (first : descend identity p4Tbl (p4Entry (alignAddr virtual)) s =
        some (p3Tbl, s1))
      (second : descend identity p3Tbl (p3Entry (alignAddr virtual)) s1 =
        some (p2Tbl, s2)) :
      Tests identity virtual p4Tbl s p2Tbl (p2Entry (alignAddr virtual)) s2

/-- A call makes another one: it tests an entry, finds it not present, and hangs
what `alloc_frame` answers there. -/
inductive CallsItself (p4Tbl : Word) : (callee caller : AddrCall) → Prop
  | create
      {caller : AddrCall} {table new : Word} {index : Fin 512}
      {t allocated : Machine}
      (notNull : ¬ caller.Null)
      (tests : Tests (fun table => mapAddr table table kernelPtEntry p4Tbl)
        caller.virtual p4Tbl caller.machine table index t)
      (missing : t.tables table index &&& 1#64 = 0#64)
      (answered : (t.touch table).allocFrame = some (new, allocated)) :
      CallsItself p4Tbl ⟨new, new, allocated.hang table index new⟩ caller

/-- The recursion of a call ends. -/
structure MapTerminates
    (physical virtual flags p4Tbl : Word) (s : Machine) : Prop where
  /-- The call returns, whatever bound on the depth it is given, from two more
  than there are clear bits on. -/
  returns : ∃ next, mapAddr physical virtual flags p4Tbl s = some next ∧
    ∀ depth, s.pmm.clearBits + 2 ≤ depth →
      mapAddrFuel depth physical virtual flags p4Tbl s = some next
  /-- It is the body of the function, which calls itself. -/
  recursive : mapAddr physical virtual flags p4Tbl s =
    mapAddrWith (fun table => mapAddr table table kernelPtEntry p4Tbl)
      physical virtual flags p4Tbl s
  /-- The calls within calls have no infinite chain. -/
  wellFounded : Acc (CallsItself p4Tbl) ⟨physical, virtual, s⟩
  /-- Every call within the call is on null, or has fewer clear bits than the
  one that makes it. -/
  decreases : ∀ caller,
    Relation.ReflTransGen (fun caller callee => CallsItself p4Tbl callee caller)
      ⟨physical, virtual, s⟩ caller →
    ∀ callee, CallsItself p4Tbl callee caller →
      callee.Null ∨
        callee.machine.pmm.clearBits < caller.machine.pmm.clearBits

/-! ## The bound on the depth -/

/-- What one function does, the other does too. -/
def Extends (identity wider : Word → Machine → Option Machine) : Prop :=
  ∀ table s next, identity table s = some next → wider table s = some next

theorem ensure_mono
    (wide : Extends identity wider)
    (ensured : ensure identity table index s = some next) :
    ensure wider table index s = some next := by
  unfold ensure at *
  split at ensured
  · rw [if_pos ‹_›]
    obtain ⟨answer, answered, rest⟩ := Option.bind_eq_some_iff.mp ensured
    rw [create, answered, Option.bind_some]
    exact wide _ _ _ rest
  · rw [if_neg ‹_›]
    exact ensured

theorem descend_mono
    {child : Word}
    (wide : Extends identity wider)
    (descended : descend identity table index s = some (child, next)) :
    descend wider table index s = some (child, next) := by
  obtain ⟨middle, ensured, same⟩ := Option.map_eq_some_iff.mp descended
  rw [descend, ensure_mono wide ensured, Option.map_some, same]

theorem mapAddrWith_mono
    (wide : Extends identity wider)
    (mapped : mapAddrWith identity physical virtual flags p4Tbl s =
      some next) :
    mapAddrWith wider physical virtual flags p4Tbl s = some next := by
  rcases mapAddrWith_cases mapped with ⟨null, rfl⟩ | ⟨notNull, walk⟩
  · rw [mapAddrWith, if_pos null]
  · obtain ⟨s1, s2, s3, p3Tbl, p2Tbl, p1Tbl, walked, rfl⟩ := walk
    exact mapAddrWith_of_walked notNull.1 notNull.2
      ⟨descend_mono wide walked.first, descend_mono wide walked.second,
        descend_mono wide walked.third⟩

/-- A deeper recursion is allowed to do what a shallower one does. -/
theorem mapAddrFuel_mono
    {depth deeper : Nat}
    (mapped : mapAddrFuel depth physical virtual flags p4Tbl s = some next)
    (ordered : depth ≤ deeper) :
    mapAddrFuel deeper physical virtual flags p4Tbl s = some next := by
  induction depth generalizing physical virtual flags s next deeper with
  | zero => cases mapped
  | succ depth inductionHypothesis =>
      cases deeper with
      | zero => cases ordered
      | succ deeper =>
          exact mapAddrWith_mono (fun table t last inner =>
            inductionHypothesis inner (Nat.le_of_succ_le_succ ordered)) mapped

/-- A call needs no more depth than there are clear bits. -/
theorem mapAddrFuel_eq
    (bounded : s.pmm.Bounded)
    (physical virtual flags p4Tbl : Word) :
    ∃ next, ∀ depth, s.pmm.clearBits + 2 ≤ depth →
      mapAddrFuel depth physical virtual flags p4Tbl s = some next := by
  have room : Room (s.pmm.clearBits + 1) s :=
    { short := Nat.lt_succ_of_le bounded.short
      marks := bounded.marks
      few := by
        rw [bounded.clearBits_eq]
        exact Nat.lt_succ_self _ }
  obtain ⟨next, mapped⟩ := Option.isSome_iff_exists.mp
    (mapAddrFuel_isSome room physical virtual flags p4Tbl)
  exact ⟨next, fun depth enough => mapAddrFuel_mono mapped enough⟩

theorem clearBits_le (bounded : s.pmm.Bounded) : s.pmm.clearBits ≤ 2 ^ 22 := by
  rw [bounded.clearBits_eq]
  exact s.pmm.freeCount_le

/-- `map_addr` is its body, calling itself: the bound is never reached. -/
theorem mapAddr_eq_body
    (bounded : s.pmm.Bounded)
    (physical virtual flags p4Tbl : Word) :
    mapAddr physical virtual flags p4Tbl s =
      mapAddrWith (fun table => mapAddr table table kernelPtEntry p4Tbl)
        physical virtual flags p4Tbl s := by
  have few := clearBits_le bounded
  obtain ⟨next, mapped⟩ := mapAddrFuel_eq bounded physical virtual flags p4Tbl
  have deeper := mapped (2 ^ 22 + 2 + 1) (by omega)
  rw [mapAddr, mapped (2 ^ 22 + 2) (by omega)]
  exact deeper.symm

/-! ## The measure -/

/-- What a call finds at a test, it has more bits set than at the start. -/
theorem Tests.advances
    (inner : ∀ table s next, identity table s = some next → Advances s next)
    (tests : Tests identity virtual p4Tbl s table index t) :
    Advances s t := by
  cases tests with
  | first => exact Advances.refl s
  | second first => exact Advances.closed.descend inner first
  | third first second =>
      exact (Advances.closed.descend inner first).trans
        (Advances.closed.descend inner second)

namespace CallsItself

variable {caller callee : AddrCall}

theorem advances (calls : CallsItself p4Tbl callee caller) :
    Advances caller.machine callee.machine := by
  obtain ⟨-, tests, -, answered⟩ := calls
  have reached := tests.advances fun _ _ _ => mapAddr_advances
  exact ((reached.trans (Advances.touch _ _)).trans
    (allocFrame_advances answered)).trans (Advances.hang _ _ _ _)

theorem bounded
    (calls : CallsItself p4Tbl callee caller)
    (bounded : caller.machine.pmm.Bounded) :
    callee.machine.pmm.Bounded :=
  bounded.marked calls.advances.marked

/-- A call within a call is on null, or has fewer clear bits. -/
theorem null_or_clearBits_lt
    (calls : CallsItself p4Tbl callee caller)
    (bounded : caller.machine.pmm.Bounded) :
    callee.Null ∨
      callee.machine.pmm.clearBits < caller.machine.pmm.clearBits := by
  have later := calls.bounded bounded
  rw [later.clearBits_eq, bounded.clearBits_eq]
  obtain ⟨-, tests, -, answered⟩ := calls
  have reached := (tests.advances fun _ _ _ => mapAddr_advances).marked
  rcases allocFrame_cases answered with ⟨isNull, -, -⟩ | ⟨taken, -, -⟩
  · exact Or.inl (Or.inl isNull)
  · refine Or.inr ?_
    have fewer := taken.freeCount_lt (reached.marks bounded.marks)
    exact fewer.trans_le reached.freeCount_le

/-- A call on null makes no calls. -/
theorem not_null (calls : CallsItself p4Tbl callee caller) : ¬ caller.Null := by
  obtain ⟨notNull, -, -, -⟩ := calls
  exact notNull

end CallsItself

theorem acc_of_null
    {call : AddrCall}
    (null : call.Null) :
    Acc (CallsItself p4Tbl) call :=
  Acc.intro call fun _ calls => absurd null calls.not_null

/-- The number of clear bits bounds every chain of calls. -/
theorem acc_of_clearBits_lt
    {bound : Nat} {call : AddrCall}
    (bounded : call.machine.pmm.Bounded)
    (few : call.machine.pmm.clearBits < bound) :
    Acc (CallsItself p4Tbl) call := by
  induction bound generalizing call with
  | zero => exact absurd few (Nat.not_lt_zero _)
  | succ bound inductionHypothesis =>
      refine Acc.intro call fun callee calls => ?_
      rcases calls.null_or_clearBits_lt bounded with null | fewer
      · exact acc_of_null null
      · exact inductionHypothesis (calls.bounded bounded)
          (fewer.trans_le (Nat.le_of_lt_succ few))

/-- `map_addr` terminates, with the number of clear bits as the measure of its
recursion: for any tables, any addresses and any flags. -/
theorem mapAddr_terminates
    (bounded : s.pmm.Bounded)
    (physical virtual flags p4Tbl : Word) :
    MapTerminates physical virtual flags p4Tbl s := by
  have few := clearBits_le bounded
  obtain ⟨next, mapped⟩ := mapAddrFuel_eq bounded physical virtual flags p4Tbl
  refine
    { returns := ⟨next, mapped (2 ^ 22 + 2) (by omega), mapped⟩
      recursive := mapAddr_eq_body bounded physical virtual flags p4Tbl
      wellFounded := acc_of_clearBits_lt bounded (Nat.lt_succ_self _)
      decreases := ?_ }
  intro caller chain
  have reached : caller.machine.pmm.Bounded := by
    induction chain with
    | refl => exact bounded
    | tail _ calls inductionHypothesis =>
        exact calls.bounded inductionHypothesis
  exact fun callee calls => calls.null_or_clearBits_lt reached

/-- A cleared root in frame 1, and 40 pages of memory, of which frame 2 and the
first one are in use.  The bits behind the memory are set. -/
def shortMachine : Machine :=
  { sampleMachine with
    pmm :=
      { bitmap := fun row => if row = 0 then 0xFFFFFF0000000007#64 else 0#64
        bitmapEntries := 1
        memPages := 40 } }

theorem shortMachine_bounded : shortMachine.pmm.Bounded where
  used := by
    intro k above inside
    change 40 ≤ k at above
    change k / 64 < 1 at inside
    exact (show ∀ k, k < 64 → 40 ≤ k → shortMachine.pmm.Used k by decide +kernel)
      k (by omega) above
  short := by decide

/-- Three tables for the page and one for the address of a table: four bits. -/
theorem mapAddr_terminates_short :
    MapTerminates 0x5000#64 0x400000#64 userPtEntry 0x1000#64 shortMachine ∧
      (mapAddr 0x5000#64 0x400000#64 userPtEntry 0x1000#64 shortMachine).map
          (fun next =>
            (shortMachine.pmm.clearBits, next.pmm.clearBits)) =
        some (37, 33) :=
  ⟨mapAddr_terminates shortMachine_bounded 0x5000#64 0x400000#64 userPtEntry
    0x1000#64, by decide +kernel⟩

end Machine
end PivotOs
