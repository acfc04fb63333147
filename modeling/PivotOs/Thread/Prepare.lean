import PivotOs.Thread.Defs
import PivotOs.Paging.SelfMap

/-!
# The tree before the switch

Up to `load_cr3`, `init_thread_vmm` is a sequence of calls of `map_addr` on a
root it has just taken, with the framebuffer's frames marked on the way.  The
calls map the root and some devices at their own addresses, and everything
else in the higher half.
-/

namespace PivotOs

open Paging

namespace KernelInfo

/-- An address that `init_thread_vmm` maps to itself. -/
def IdentityAddress (info : KernelInfo) (address : Word) : Prop :=
  (∃ i, i < info.bufferPages ∧ address = Pmm.pageAddress info.buffer i) ∨
    (info.x2mode = false ∧ address = info.lapic) ∨
    ∃ i, i < info.pmmPages ∧ address = Pmm.pageAddress info.bitmap i

/-- An address of the kernel's image, of its heap or of the stack. -/
def KernelAddress (info : KernelInfo) (address : Word) : Prop :=
  address = vaddr info.stack ∨
    (∃ entry ∈ info.ke, ∃ i, i < entry.numPages ∧
      address = Pmm.pageAddress entry.vaddr i) ∨
    ∃ b ∈ info.heap, ∃ i, i < Machine.heapPages b ∧
      address = Pmm.pageAddress (Machine.heapStart b) i

/-- Where things lie: the linker script and the kernel's VMM put the kernel's
image and heap in the higher half, and the devices have canonical
addresses. -/
structure Layout (info : KernelInfo) : Prop where
  /-- The kernel's image. -/
  entries : ∀ entry ∈ info.ke, ∀ i, i < entry.numPages →
    (Pmm.pageAddress entry.vaddr i).getLsbD 47 = true
  /-- The kernel's heap. -/
  heap : ∀ b ∈ info.heap, ∀ i, i < Machine.heapPages b →
    (Pmm.pageAddress (Machine.heapStart b) i).getLsbD 47 = true
  /-- The devices. -/
  devices : ∀ address, info.IdentityAddress address →
    address.toNat < 2 ^ 47 ∨ address.getLsbD 47 = true

theorem Layout.kernel
    {info : KernelInfo}
    (layout : info.Layout)
    {address : Word}
    (kernel : info.KernelAddress address) :
    address.getLsbD 47 = true := by
  rcases kernel with
    rfl | ⟨entry, member, i, below, rfl⟩ | ⟨b, member, i, below, rfl⟩
  · exact vaddr_bit info.stack
  · exact layout.entries entry member i below
  · exact layout.heap b member i below

end KernelInfo

/-- Flags that `init_thread_vmm` passes to `map_addr`. -/
def ThreadFlags (flags : Word) : Prop :=
  flags = kernelPtEntry ∨ flags = userPtEntry ∨
    flags = kernelPtEntry ||| 1#64 <<< 4

theorem ThreadFlags.small {flags : Word} (known : ThreadFlags flags) :
    flags.toNat < 4096 := by
  rcases known with rfl | rfl | rfl <;> decide

theorem ThreadFlags.present {flags : Word} (known : ThreadFlags flags) :
    flags.toNat % 2 = 1 := by
  rcases known with rfl | rfl | rfl <;> decide

/-- A call that `init_thread_vmm` makes of `map_addr`: its flags, and what it
maps. -/
def KernelInfo.ThreadCall (info : KernelInfo) (call : MapCall) : Prop :=
  ThreadFlags call.flags ∧
    ((call.physical = call.virtual ∧ info.IdentityAddress call.virtual) ∨
      info.KernelAddress call.virtual)

namespace Machine

variable {s next last : Machine} {root : Word}

/-! ## Loops as sequences of calls -/

/-- The calls of a sequence satisfy `Described`. -/
def BuiltBy (Described : MapCall → Prop) (root : Word) (s last : Machine) :
    Prop :=
  ∃ calls, Built root s calls last ∧ ∀ call ∈ calls, Described call

theorem BuiltBy.trans
    {Described : MapCall → Prop}
    (first : BuiltBy Described root s next)
    (second : BuiltBy Described root next last) :
    BuiltBy Described root s last := by
  obtain ⟨calls, built, described⟩ := first
  obtain ⟨later, laterBuilt, laterDescribed⟩ := second
  refine ⟨later ++ calls, built.trans laterBuilt, ?_⟩
  intro call member
  rcases List.mem_append.mp member with inLater | earlier
  · exact laterDescribed call inLater
  · exact described call earlier

theorem BuiltBy.mono
    {Described Wider : MapCall → Prop}
    (built : BuiltBy Described root s last)
    (wider : ∀ call, Described call → Wider call) :
    BuiltBy Wider root s last := by
  obtain ⟨calls, built, described⟩ := built
  exact ⟨calls, built, fun call member => wider call (described call member)⟩

/-- The calls of `map_range`, newest first. -/
def rangeCalls (physical virtual flags : Word) : Nat → List MapCall
  | 0 => []
  | count + 1 =>
      ⟨Pmm.pageAddress physical count, Pmm.pageAddress virtual count, flags⟩ ::
        rangeCalls physical virtual flags count

theorem mem_rangeCalls
    {physical virtual flags : Word} {count : Nat} {call : MapCall} :
    call ∈ rangeCalls physical virtual flags count ↔
      ∃ i, i < count ∧
        call = ⟨Pmm.pageAddress physical i, Pmm.pageAddress virtual i,
          flags⟩ := by
  induction count with
  | zero => simp [rangeCalls]
  | succ count inductionHypothesis =>
      rw [rangeCalls, List.mem_cons, inductionHypothesis]
      constructor
      · rintro (rfl | ⟨i, below, rfl⟩)
        · exact ⟨count, Nat.lt_succ_self count, rfl⟩
        · exact ⟨i, Nat.lt_succ_of_lt below, rfl⟩
      · rintro ⟨i, below, rfl⟩
        rcases Nat.lt_succ_iff_lt_or_eq.mp below with earlier | rfl
        · exact Or.inr ⟨i, earlier, rfl⟩
        · exact Or.inl rfl

theorem mapRange_built
    {physical virtual flags : Word} {count : Nat}
    (mapped : mapRange physical virtual flags root count s = some last) :
    Built root s (rangeCalls physical virtual flags count) last := by
  induction count generalizing last with
  | zero =>
      obtain rfl := Option.some.inj mapped
      exact Built.start
  | succ count inductionHypothesis =>
      obtain ⟨next, earlier, round⟩ := Option.bind_eq_some_iff.mp mapped
      exact (inductionHypothesis earlier).call round

theorem mapKernelEntries_built
    {entries : List KernelEntry}
    (mapped : mapKernelEntries root entries s = some last) :
    BuiltBy (fun call => call.flags = userPtEntry ∧
      ∃ entry ∈ entries, ∃ i, i < entry.numPages ∧
        call.virtual = Pmm.pageAddress entry.vaddr i) root s last := by
  induction entries generalizing s with
  | nil =>
      obtain rfl := Option.some.inj mapped
      exact ⟨[], Built.start, by simp⟩
  | cons entry entries inductionHypothesis =>
      obtain ⟨next, first, rest⟩ := Option.bind_eq_some_iff.mp mapped
      have range : BuiltBy (fun call => call.flags = userPtEntry ∧
          ∃ other ∈ entry :: entries, ∃ i, i < other.numPages ∧
            call.virtual = Pmm.pageAddress other.vaddr i) root s next := by
        refine ⟨_, mapRange_built first, ?_⟩
        intro call member
        obtain ⟨i, below, rfl⟩ := mem_rangeCalls.mp member
        exact ⟨rfl, entry, by simp, i, below, rfl⟩
      refine range.trans ((inductionHypothesis rest).mono ?_)
      rintro call ⟨flags, other, member, i, below, eq⟩
      exact ⟨flags, other, by simp [member], i, below, eq⟩

theorem mapRegion_built
    {srcVmm start : Word} {count : Nat}
    (mapped : mapRegion srcVmm root start count s = some last) :
    BuiltBy (fun call => call.flags = kernelPtEntry ∧
      ∃ i, i < count ∧ call.virtual = Pmm.pageAddress start i) root s last := by
  induction count generalizing last with
  | zero =>
      obtain rfl := Option.some.inj mapped
      exact ⟨[], Built.start, by simp⟩
  | succ count inductionHypothesis =>
      obtain ⟨next, earlier, round⟩ := Option.bind_eq_some_iff.mp mapped
      obtain ⟨calls, built, described⟩ := inductionHypothesis earlier
      have stepped : exec root next ⟨next.translateAddr
          (Pmm.pageAddress start count) srcVmm, Pmm.pageAddress start count,
          kernelPtEntry⟩ = some last := round
      refine ⟨_, built.call stepped, ?_⟩
      intro call member
      rcases List.mem_cons.mp member with rfl | old
      · exact ⟨rfl, count, Nat.lt_succ_self count, rfl⟩
      · obtain ⟨flags, i, below, eq⟩ := described call old
        exact ⟨flags, i, Nat.lt_succ_of_lt below, eq⟩

theorem mapHeap_built
    {srcVmm : Word} {chain : List Bitmap}
    (mapped : mapHeap srcVmm root chain s = some last) :
    BuiltBy (fun call => call.flags = kernelPtEntry ∧
      ∃ b ∈ chain, ∃ i, i < heapPages b ∧
        call.virtual = Pmm.pageAddress (heapStart b) i) root s last := by
  induction chain generalizing s with
  | nil =>
      obtain rfl := Option.some.inj mapped
      exact ⟨[], Built.start, by simp⟩
  | cons b chain inductionHypothesis =>
      obtain ⟨next, first, rest⟩ := Option.bind_eq_some_iff.mp mapped
      refine BuiltBy.trans ((mapRegion_built first).mono ?_)
        ((inductionHypothesis rest).mono ?_)
      · rintro call ⟨flags, i, below, eq⟩
        exact ⟨flags, b, by simp, i, below, eq⟩
      · rintro call ⟨flags, other, member, i, below, eq⟩
        exact ⟨flags, other, by simp [member], i, below, eq⟩

theorem mapLapic_built
    {info : KernelInfo}
    (mapped : mapLapic info root s = some last) :
    ∃ calls, Built root s calls last ∧
      (∀ call ∈ calls, info.x2mode = false ∧
        call = ⟨info.lapic, info.lapic, kernelPtEntry ||| 1#64 <<< 4⟩) ∧
      (info.x2mode = false →
        ⟨info.lapic, info.lapic, kernelPtEntry ||| 1#64 <<< 4⟩ ∈ calls) := by
  rw [mapLapic] at mapped
  split at mapped
  · rename_i x2mode
    obtain rfl := Option.some.inj mapped
    exact ⟨[], Built.start, by simp, by simp [x2mode]⟩
  · rename_i xApic
    have stepped : exec root s ⟨info.lapic, info.lapic,
        kernelPtEntry ||| 1#64 <<< 4⟩ = some last := mapped
    exact ⟨_, Built.start.call stepped, by simpa using xApic, by simp⟩

/-! ## The whole of it -/

/-- What `prepare` has done: it took a root, cleaned it, mapped it at its own
address, and made these calls on it. -/
structure Prepared (info : KernelInfo) (s allocated opened : Machine)
    (root : Word) (calls : List MapCall) (prepared : Machine) : Prop where
  /-- The root was taken. -/
  answered : s.allocFrame = some (root, allocated)
  /-- The clean root was mapped. -/
  started : exec root (allocated.cleanTable root)
    ⟨root, root, kernelPtEntry⟩ = some opened
  /-- The calls were made on it. -/
  built : Built root opened calls prepared
  /-- Their flags are known. -/
  flags : ∀ call ∈ calls, ThreadFlags call.flags
  /-- Each maps an identity or an address of the kernel. -/
  kind : ∀ call ∈ calls,
    (call.physical = call.virtual ∧ info.IdentityAddress call.virtual) ∨
      info.KernelAddress call.virtual
  /-- The devices are mapped. -/
  identity_mapped : ∀ address, info.IdentityAddress address →
    ∃ flags, ⟨address, address, flags⟩ ∈ calls
  /-- The frames of the framebuffer are marked. -/
  buffer_marked : ∀ i, i < info.bufferPages →
    Pmm.pageAddress info.buffer i ≠ 0#64 →
    frameOf (Pmm.pageAddress info.buffer i) ≤ s.pmm.memPages →
      prepared.pmm.Used (frameOf (Pmm.pageAddress info.buffer i))

theorem prepare_cases
    {info : KernelInfo} {prepared : Machine}
    (ran : s.prepare info = some (root, prepared)) :
    ∃ allocated opened calls,
      Prepared info s allocated opened root calls prepared := by
  obtain ⟨⟨p4Tbl, allocated⟩, answered, rest⟩ := Option.bind_eq_some_iff.mp ran
  obtain ⟨final, mapped, same⟩ := Option.map_eq_some_iff.mp rest
  obtain ⟨rfl, rfl⟩ := Prod.mk.inj same
  clear ran rest same
  simp only at mapped
  obtain ⟨s1, first, mapped⟩ := Option.bind_eq_some_iff.mp mapped
  obtain ⟨s2, second, mapped⟩ := Option.bind_eq_some_iff.mp mapped
  obtain ⟨s3, entries, mapped⟩ := Option.bind_eq_some_iff.mp mapped
  obtain ⟨s4, buffer, mapped⟩ := Option.bind_eq_some_iff.mp mapped
  obtain ⟨s5, lapic, mapped⟩ := Option.bind_eq_some_iff.mp mapped
  obtain ⟨s6, heap, pmm⟩ := Option.bind_eq_some_iff.mp mapped
  obtain ⟨unmarked, range, marked_eq⟩ := Option.map_eq_some_iff.mp buffer
  have firstCall : exec p4Tbl (allocated.cleanTable p4Tbl)
      ⟨p4Tbl, p4Tbl, kernelPtEntry⟩ = some s1 := first
  have secondCall : exec p4Tbl s1
      ⟨info.stack, vaddr info.stack, kernelPtEntry⟩ = some s2 := second
  have stackBuilt := Built.start.call secondCall
  obtain ⟨entryCalls, entryBuilt, entryKind⟩ := mapKernelEntries_built entries
  have bufferBuilt := (mapRange_built range).mark
    (Pmm.Marked.pmmSetArea unmarked.pmm info.buffer info.bufferPages)
  rw [marked_eq] at bufferBuilt
  obtain ⟨lapicCalls, lapicBuilt, lapicKind, lapicMapped⟩ :=
    mapLapic_built lapic
  obtain ⟨heapCalls, heapBuilt, heapKind⟩ := mapHeap_built heap
  have pmmBuilt := mapRange_built pmm
  have before := (stackBuilt.trans entryBuilt).trans (mapRange_built range)
  have later := (lapicBuilt.trans heapBuilt).trans pmmBuilt
  have built := ((stackBuilt.trans entryBuilt).trans bufferBuilt).trans later
  have pmmCalls : ∀ call ∈ rangeCalls info.bitmap info.bitmap kernelPtEntry
      info.pmmPages, info.ThreadCall call := by
    intro call member
    obtain ⟨i, below, rfl⟩ := mem_rangeCalls.mp member
    exact ⟨Or.inl rfl, Or.inl ⟨rfl, Or.inr (Or.inr ⟨i, below, rfl⟩)⟩⟩
  have bufferCalls : ∀ call ∈ rangeCalls info.buffer info.buffer userPtEntry
      info.bufferPages, info.ThreadCall call := by
    intro call member
    obtain ⟨i, below, rfl⟩ := mem_rangeCalls.mp member
    exact ⟨Or.inr (Or.inl rfl), Or.inl ⟨rfl, Or.inl ⟨i, below, rfl⟩⟩⟩
  have lapicCall : ∀ call ∈ lapicCalls, info.ThreadCall call := by
    intro call member
    obtain ⟨xApic, rfl⟩ := lapicKind call member
    exact ⟨Or.inr (Or.inr rfl), Or.inl ⟨rfl, Or.inr (Or.inl ⟨xApic, rfl⟩)⟩⟩
  have heapCall : ∀ call ∈ heapCalls, info.ThreadCall call := by
    intro call member
    obtain ⟨flags, address⟩ := heapKind call member
    exact ⟨Or.inl flags, Or.inr (Or.inr (Or.inr address))⟩
  have entryCall : ∀ call ∈ entryCalls, info.ThreadCall call := by
    intro call member
    obtain ⟨flags, address⟩ := entryKind call member
    exact ⟨Or.inr (Or.inl flags), Or.inr (Or.inr (Or.inl address))⟩
  have stackCall : info.ThreadCall
      ⟨info.stack, vaddr info.stack, kernelPtEntry⟩ :=
    ⟨Or.inl rfl, Or.inr (Or.inl rfl)⟩
  have threadCalls := List.forall_mem_append.mpr
    ⟨List.forall_mem_append.mpr
        ⟨pmmCalls, List.forall_mem_append.mpr ⟨heapCall, lapicCall⟩⟩,
      List.forall_mem_append.mpr
        ⟨bufferCalls, List.forall_mem_append.mpr
          ⟨entryCall, List.forall_mem_singleton.mpr stackCall⟩⟩⟩
  refine ⟨allocated, s1, _, answered, firstCall, built,
    fun call member => (threadCalls call member).1,
    fun call member => (threadCalls call member).2, ?_, ?_⟩
  · rintro address (⟨i, below, rfl⟩ | ⟨xApic, rfl⟩ | ⟨i, below, rfl⟩)
    · refine ⟨userPtEntry, List.mem_append_right _ (List.mem_append_left _ ?_)⟩
      exact mem_rangeCalls.mpr ⟨i, below, rfl⟩
    · refine ⟨_, List.mem_append_left _ (List.mem_append_right _
        (List.mem_append_right _ (lapicMapped xApic)))⟩
    · refine ⟨kernelPtEntry, List.mem_append_left _ (List.mem_append_left _ ?_)⟩
      exact mem_rangeCalls.mpr ⟨i, below, rfl⟩
  · intro i below notNull inside
    have used : s4.pmm.Used (frameOf (Pmm.pageAddress info.buffer i)) := by
      rw [← marked_eq]
      apply Pmm.used_pmmSetArea below notNull
      rw [before.advances.marked.memPages_eq,
        (mapAddr_advances firstCall).marked.memPages_eq]
      exact inside.trans_eq
        (allocFrame_advances answered).marked.memPages_eq.symm
    exact later.advances.marked.used _ used

/-! ## The prepared tree -/

/-- The entry makes the processor find the table at its own address. -/
def PointsTo (table entry : Word) : Prop := tableLinks.next entry = some table

theorem goodFlags_pointsTo
    {flags : Word}
    (known : ThreadFlags flags) :
    GoodFlags PointsTo flags := fun _ aligned low =>
  next_or_flags aligned (lt_trans low (by decide)) known.small known.present

/-- The tree that `prepare` leaves, when no `alloc_frame` failed. -/
structure Ready (info : KernelInfo) (s : Machine) (root : Word)
    (prepared : Machine) : Prop where
  /-- The root was free. -/
  fresh : s.pmm.Fresh root
  /-- No lower frame was. -/
  lowest : ∀ j, j < frameOf root → s.pmm.Used j
  /-- Frames were only marked. -/
  marked : s.pmm.Marked prepared.pmm
  /-- Every table is mapped at its own address. -/
  selfMapped : SelfMapped PointsTo root prepared
  /-- Every table was free. -/
  tables_fresh : ∀ table, prepared.IsTable root table → s.pmm.Fresh table
  /-- The root has its tables. -/
  root_path : (prepared.nodeAt root (tablePath root)).isSome
  /-- The devices have theirs. -/
  device_path : ∀ address, info.IdentityAddress address → address ≠ 0#64 →
    (prepared.nodeAt root (tablePath address)).isSome
  /-- A table below the root stands on the way to the higher half, to a table
  or to a device. -/
  path_cause : ∀ path table, path ≠ [] → path.length < 4 →
    prepared.nodeAt root path = some table →
      ∃ address, path <:+ tablePath address ∧
        (2 ^ 35 ≤ pageOf address ∨ s.pmm.Fresh address ∨
          (info.IdentityAddress address ∧ address ≠ 0#64))
  /-- A free frame that is no device's is not mapped. -/
  leaf_free : ∀ frame, prepared.pmm.Fresh frame →
    (∀ address, info.IdentityAddress address → address ≠ 0#64 →
      pageOf address ≠ pageOf frame) →
    prepared.leafAt root frame = 0#64
  /-- The framebuffer is not free. -/
  buffer_used : ∀ i, i < info.bufferPages →
    Pmm.pageAddress info.buffer i ≠ 0#64 →
      ¬ prepared.pmm.Free (frameOf (Pmm.pageAddress info.buffer i))

namespace Prepared

variable {info : KernelInfo} {allocated opened prepared : Machine}
variable {calls : List MapCall}

theorem call_kind
    (made : Prepared info s allocated opened root calls prepared)
    (layout : info.Layout)
    {call : MapCall}
    (member : call ∈ calls) :
    call.Identity ∨ call.virtual.getLsbD 47 = true := by
  rcases made.kind call member with ⟨same, device⟩ | kernel
  · rcases layout.devices _ device with low | high
    · exact Or.inl ⟨same, low⟩
    · exact Or.inr high
  · exact Or.inr (layout.kernel kernel)

/-- The calls map the higher half, the root and the devices. -/
theorem call_cause
    (made : Prepared info s allocated opened root calls prepared)
    (layout : info.Layout)
    {call : MapCall}
    (member : call ∈ calls ++ [⟨root, root, kernelPtEntry⟩]) :
    2 ^ 35 ≤ pageOf call.virtual ∨ call.virtual = root ∨
      info.IdentityAddress call.virtual := by
  rcases List.mem_append.mp member with later | start
  · rcases made.kind call later with ⟨-, device⟩ | kernel
    · exact Or.inr (Or.inr device)
    · exact Or.inl (le_pageOf_of_bit (layout.kernel kernel))
  · obtain rfl := List.mem_singleton.mp start
    exact Or.inr (Or.inl rfl)

/-- The first call maps the root, so every later one finds it mapped. -/
theorem selfMapped
    (made : Prepared info s allocated opened root calls prepared)
    (layout : info.Layout)
    (marks : s.pmm.Marks)
    (taken : s.pmm.Taken root allocated.pmm)
    (started : opened.nulls = allocated.nulls)
    (enough : prepared.nulls = opened.nulls) :
    SelfMapped PointsTo root prepared := by
  obtain ⟨cleared, tree⟩ := cleanTable_tree marks taken
  have marksNow : (allocated.cleanTable root).pmm.Marks :=
    taken.marked.marks marks
  have rootLow : root.toNat < 2 ^ 47 :=
    lt_trans (Pmm.Fresh.of_taken taken).toNat_lt (by decide)
  have onlyRoot : ∀ table,
      (allocated.cleanTable root).IsTable root table → table = root :=
    fun table => RadixTree.member_of_cleared cleared
  have kernel := goodFlags_pointsTo (Or.inl rfl)
  have opens : SelfMapped PointsTo root opened := by
    refine Maps.selfMapped ⟨root, root, kernelPtEntry⟩ tree marksNow ?_ ?_
      kernel kernel (Or.inl ⟨rfl, rootLow⟩)
      (mapAddr_maps tree marksNow taken.ne_zero taken.ne_zero made.started
        started)
    · intro table isTable
      rw [onlyRoot table isTable]
      exact rootLow
    · intro table isTable
      rw [onlyRoot table isTable]
      exact Or.inr rfl
  exact made.built.selfMapped opens kernel
    (fun call member => goodFlags_pointsTo (made.flags call member))
    (fun call member => made.call_kind layout member) enough

theorem advances
    (made : Prepared info s allocated opened root calls prepared) :
    Advances s prepared :=
  (allocFrame_advances made.answered).trans
    ((Advances.cleanTable allocated root).trans
      ((mapAddr_advances made.started).trans made.built.advances))

section

variable {tables : List Word}

/-- A table below the root is on the way to a page that a call maps, or to
another table. -/
theorem path_cause
    (made : Prepared info s allocated opened root calls prepared)
    (layout : info.Layout)
    (taken : s.pmm.Taken root allocated.pmm)
    (grown : Grown root tables tables
      (Built.touches (calls ++ [⟨root, root, kernelPtEntry⟩]))
      (allocated.cleanTable root) prepared)
    (noPath : ∀ index path,
      (allocated.cleanTable root).nodeAt root (index :: path) = none)
    {path : List (Fin 512)} {table : Word}
    (nonempty : path ≠ [])
    (short : path.length < 4)
    (found : prepared.nodeAt root path = some table) :
    ∃ address, path <:+ tablePath address ∧
      (2 ^ 35 ≤ pageOf address ∨ s.pmm.Fresh address ∨
        (info.IdentityAddress address ∧ address ≠ 0#64)) := by
  have fresh := Pmm.Fresh.of_taken taken
  rcases grown.reached path table short found with old | new
  · cases path with
    | nil => contradiction
    | cons index path =>
        rw [noPath index path] at old
        contradiction
  · obtain ⟨address, cause, suffix⟩ := new
    rcases cause with ⟨call, member, -, virtual_ne, page⟩ | new
    · have paths := (pagePath_eq_iff address call.virtual).mpr page
      rw [(List.cons.inj paths).2] at suffix
      refine ⟨call.virtual, suffix, ?_⟩
      rcases made.call_cause layout member with high | isRoot | device
      · exact Or.inl high
      · exact Or.inr (Or.inl (isRoot ▸ fresh))
      · exact Or.inr (Or.inr ⟨device, virtual_ne⟩)
    · exact ⟨address, suffix, Or.inr (Or.inl ((grown.fresh address
        (grown.tables_taken address new)).of_marked taken.marked))⟩

/-- No call maps a free frame that is no device's. -/
theorem leaf_free
    (made : Prepared info s allocated opened root calls prepared)
    (layout : info.Layout)
    (taken : s.pmm.Taken root allocated.pmm)
    (grown : Grown root tables tables
      (Built.touches (calls ++ [⟨root, root, kernelPtEntry⟩]))
      (allocated.cleanTable root) prepared)
    (noPath : ∀ index path,
      (allocated.cleanTable root).nodeAt root (index :: path) = none)
    (rootUsed : prepared.pmm.Used (frameOf root))
    {frame : Word}
    (free : prepared.pmm.Fresh frame)
    (noDevice : ∀ address, info.IdentityAddress address → address ≠ 0#64 →
      pageOf address ≠ pageOf frame) :
    prepared.leafAt root frame = 0#64 := by
  have fresh := Pmm.Fresh.of_taken taken
  rw [grown.leaf_other frame]
  · exact RadixTree.leafAt_of_none
      (noPath (p2Entry frame) [p3Entry frame, p4Entry frame])
  · rintro ⟨call, member, -, virtual_ne, page⟩
    rcases made.call_cause layout member with high | isRoot | device
    · have small := free.small
      rw [free.pageOf_eq] at page
      omega
    · rw [isRoot] at page
      exact free.pageOf_ne (lt_trans fresh.small (by decide)) rootUsed
        page.symm
    · exact noDevice _ device virtual_ne page.symm
  · intro table new
    have member := grown.tables_taken table new
    exact (free.pageOf_ne
      (lt_trans (grown.fresh table member).small (by decide))
      (grown.taken_used table member)).symm

end

theorem ready
    (made : Prepared info s allocated opened root calls prepared)
    (layout : info.Layout)
    (marks : s.pmm.Marks)
    (enough : prepared.nulls = s.nulls) :
    Ready info s root prepared := by
  have first := allocFrame_advances made.answered
  have second := mapAddr_advances made.started
  have third := made.built.advances
  have firstNulls := first.nulls_le
  have secondNulls : allocated.nulls ≤ opened.nulls := second.nulls_le
  have thirdNulls := third.nulls_le
  rcases allocFrame_cases made.answered with
    ⟨-, failed, -⟩ | ⟨taken, -, -⟩
  · omega
  have fresh := Pmm.Fresh.of_taken taken
  obtain ⟨cleared, tree⟩ := cleanTable_tree marks taken
  have marksNow : (allocated.cleanTable root).pmm.Marks :=
    taken.marked.marks marks
  have selfMapped := made.selfMapped layout marks taken (by omega) (by omega)
  have whole := (Built.start.call made.started).trans made.built
  obtain ⟨tables, grown, present⟩ := whole.grown tree marksNow (by
    change prepared.nulls = allocated.nulls
    omega)
  have marked : s.pmm.Marked prepared.pmm :=
    taken.marked.trans grown.marked
  have rootUsed : prepared.pmm.Used (frameOf root) :=
    grown.marked.used _ ((taken.used_iff marks _).mpr (Or.inr rfl))
  have noPath : ∀ index path,
      (allocated.cleanTable root).nodeAt root (index :: path) = none :=
    RadixTree.nodeAt_of_cleared cleared
  exact
    { fresh := fresh
      lowest := taken.lowest
      marked := marked
      selfMapped := selfMapped
      tables_fresh := by
        intro table isTable
        rcases (grown.isTable_iff table).mp isTable with old | new
        · rw [RadixTree.member_of_cleared cleared old]
          exact fresh
        · exact (grown.fresh table (grown.tables_taken table new)).of_marked
            taken.marked
      root_path := present ⟨root, root, kernelPtEntry⟩ (by simp)
        taken.ne_zero taken.ne_zero
      device_path := by
        intro address device notNull
        obtain ⟨flags, member⟩ := made.identity_mapped address device
        exact present ⟨address, address, flags⟩
          (List.mem_append_left _ member) notNull notNull
      path_cause := fun _ _ nonempty short found =>
        made.path_cause layout taken grown noPath nonempty short found
      leaf_free := fun _ free noDevice =>
        made.leaf_free layout taken grown noPath rootUsed free noDevice
      buffer_used := by
        intro i below notNull free
        have inside := marked.marks marks _ free
        rw [marked.memPages_eq] at inside
        exact free.2 (made.buffer_marked i below notNull inside) }

end Prepared
end Machine
end PivotOs
