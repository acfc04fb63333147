import Mathlib.Logic.Function.Basic
import Mathlib.Data.List.Basic

/-!
# Singly linked lists in a store

Nodes are named by pointers, and a store gives every node the pointer to the
next one.  A segment is the list of nodes met on the way from one pointer to
another; a list is a segment that ends in the null pointer.  A change of the
store is felt only by the segments that hold the changed node.
-/

namespace LinkedList

variable {Ptr : Type*}

/-- Following `next` from `start` meets these nodes and then `stop`. -/
def Segment (next : Ptr → Ptr) (null : Ptr) : Ptr → List Ptr → Ptr → Prop
  | start, [], stop => start = stop
  | start, node :: nodes, stop =>
      start = node ∧ node ≠ null ∧ Segment next null (next node) nodes stop

/-- The list at a pointer. -/
def Spells (next : Ptr → Ptr) (null head : Ptr) (nodes : List Ptr) : Prop :=
  Segment next null head nodes null

variable {next later : Ptr → Ptr} {null start stop head : Ptr}
  {nodes others : List Ptr}

/-! ## Segments -/

@[simp] theorem segment_nil :
    Segment next null start [] stop ↔ start = stop := Iff.rfl

@[simp] theorem segment_cons {node : Ptr} :
    Segment next null start (node :: nodes) stop ↔
      start = node ∧ node ≠ null ∧
        Segment next null (next node) nodes stop := Iff.rfl

/-- Segments are put together where one ends and the other starts. -/
theorem segment_append :
    Segment next null start (nodes ++ others) stop ↔
      ∃ middle, Segment next null start nodes middle ∧
        Segment next null middle others stop := by
  induction nodes generalizing start with
  | nil => simp
  | cons node nodes inductionHypothesis =>
      simp only [List.cons_append, segment_cons, inductionHypothesis]
      constructor
      · rintro ⟨rfl, notNull, middle, first, second⟩
        exact ⟨middle, ⟨rfl, notNull, first⟩, second⟩
      · rintro ⟨middle, ⟨rfl, notNull, first⟩, second⟩
        exact ⟨rfl, notNull, middle, first, second⟩

/-- A segment depends on the nodes it holds only. -/
theorem Segment.congr
    (segment : Segment next null start nodes stop)
    (same : ∀ node ∈ nodes, later node = next node) :
    Segment later null start nodes stop := by
  induction nodes generalizing start with
  | nil => exact segment
  | cons node nodes inductionHypothesis =>
      obtain ⟨rfl, notNull, rest⟩ := segment
      refine ⟨rfl, notNull, ?_⟩
      rw [same start List.mem_cons_self]
      exact inductionHypothesis rest fun other member =>
        same other (List.mem_cons_of_mem start member)

/-- A change outside a segment is not felt. -/
theorem Segment.update_outside [DecidableEq Ptr]
    {node target : Ptr}
    (segment : Segment next null start nodes stop)
    (outside : node ∉ nodes) :
    Segment (Function.update next node target) null start nodes stop := by
  refine segment.congr fun other member => ?_
  refine Function.update_of_ne ?_ target next
  rintro rfl
  exact outside member

/-- The last node of a segment may be made to point elsewhere. -/
theorem Segment.redirect [DecidableEq Ptr]
    {last target : Ptr}
    (segment : Segment next null start (nodes ++ [last]) stop)
    (fresh : last ∉ nodes) :
    Segment (Function.update next last target) null start (nodes ++ [last])
      target := by
  obtain ⟨middle, first, second⟩ := segment_append.mp segment
  obtain ⟨rfl, notNull, -⟩ := segment_cons.mp second
  refine segment_append.mpr ⟨middle, first.update_outside fresh, ?_⟩
  refine ⟨rfl, notNull, ?_⟩
  rw [Function.update_self]
  rfl

/-! ## Lists -/

@[simp] theorem spells_nil : Spells next null head [] ↔ head = null := Iff.rfl

@[simp] theorem spells_cons {node : Ptr} :
    Spells next null head (node :: nodes) ↔
      head = node ∧ node ≠ null ∧ Spells next null (next node) nodes := Iff.rfl

/-- A pointer has one list at most. -/
theorem Spells.unique
    (left : Spells next null head nodes)
    (right : Spells next null head others) :
    nodes = others := by
  induction nodes generalizing head others with
  | nil =>
      cases others with
      | nil => rfl
      | cons other others =>
          obtain ⟨rfl, notNull, -⟩ := right
          exact absurd left notNull
  | cons node nodes inductionHypothesis =>
      obtain ⟨rfl, notNull, leftRest⟩ := left
      cases others with
      | nil => exact absurd right notNull
      | cons other others =>
          obtain ⟨rfl, -, rightRest⟩ := right
          rw [inductionHypothesis leftRest rightRest]

theorem Spells.ne_null
    (spelled : Spells next null head nodes)
    {node : Ptr}
    (member : node ∈ nodes) :
    node ≠ null := by
  induction nodes generalizing head with
  | nil => simp at member
  | cons first nodes inductionHypothesis =>
      obtain ⟨rfl, notNull, rest⟩ := spelled
      rcases List.mem_cons.mp member with rfl | later
      · exact notNull
      · exact inductionHypothesis rest later

/-- A list that ends meets no node twice. -/
theorem Spells.nodup (spelled : Spells next null head nodes) : nodes.Nodup := by
  induction nodes generalizing head with
  | nil => exact List.nodup_nil
  | cons node nodes inductionHypothesis =>
      obtain ⟨rfl, notNull, rest⟩ := spelled
      refine List.nodup_cons.mpr ⟨fun member => ?_, inductionHypothesis rest⟩
      -- met again, the node would start two lists of different lengths
      obtain ⟨before, after, rfl⟩ := List.append_of_mem member
      obtain ⟨middle, -, again⟩ := segment_append.mp rest
      obtain ⟨rfl, -, shorter⟩ := segment_cons.mp again
      have same := Spells.unique rest shorter
      have lengths := congrArg List.length same
      simp at lengths
      omega

/-- The empty list is the null pointer. -/
theorem Spells.eq_nil_iff (spelled : Spells next null head nodes) :
    nodes = [] ↔ head = null := by
  constructor
  · rintro rfl
    exact spelled
  · rintro rfl
    exact spelled.unique rfl

/-- The list of a pointer that is not null starts there. -/
theorem Spells.exists_cons
    (spelled : Spells next null head nodes)
    (notNull : head ≠ null) :
    ∃ rest, nodes = head :: rest := by
  cases nodes with
  | nil => exact absurd spelled notNull
  | cons node rest =>
      obtain ⟨rfl, -, -⟩ := spelled
      exact ⟨rest, rfl⟩

/-- What a node of the list points to is on the list. -/
theorem Spells.next_mem
    {node : Ptr}
    (spelled : Spells next null head nodes)
    (member : node ∈ nodes)
    (more : next node ≠ null) :
    next node ∈ nodes := by
  obtain ⟨before, after, rfl⟩ := List.append_of_mem member
  obtain ⟨middle, -, rest⟩ := segment_append.mp spelled
  obtain ⟨rfl, -, behind⟩ := segment_cons.mp rest
  obtain ⟨others, rfl⟩ := Spells.exists_cons behind more
  simp

/-! ## Walking -/

/-- Follow the list while a test succeeds; the last node passed, or `prev`, and
the pointer that stopped the walk. -/
def walk [DecidableEq Ptr] (next : Ptr → Ptr) (null : Ptr)
    (goOn : Ptr → Bool) : (fuel : Nat) → (prev item : Ptr) → Option (Ptr × Ptr)
  | 0, _, _ => none
  | fuel + 1, prev, item =>
      if item ≠ null ∧ goOn item then walk next null goOn fuel item (next item)
      else some (prev, item)

/-- A walk along a list passes the nodes before the first failure. -/
theorem walk_eq [DecidableEq Ptr]
    {goOn : Ptr → Bool} {fuel : Nat}
    (prev : Ptr)
    (spelled : Spells next null head nodes)
    (enough : nodes.length < fuel) :
    walk next null goOn fuel prev head =
      some ((nodes.takeWhile goOn).getLastD prev,
        (nodes.dropWhile goOn).headD null) := by
  induction nodes generalizing head prev fuel with
  | nil =>
      obtain ⟨fuel, rfl⟩ := Nat.exists_eq_succ_of_ne_zero
        (Nat.ne_of_gt (Nat.zero_lt_of_lt enough))
      have ended : head = null := spelled
      simp [walk, ended]
  | cons node nodes inductionHypothesis =>
      obtain ⟨fuel, rfl⟩ := Nat.exists_eq_succ_of_ne_zero
        (Nat.ne_of_gt (Nat.zero_lt_of_lt enough))
      obtain ⟨rfl, notNull, rest⟩ := spelled
      cases tested : goOn head with
      | false => simp [walk, tested]
      | true =>
          have fewer : nodes.length < fuel := by
            simpa using enough
          rw [walk, if_pos ⟨notNull, tested⟩,
            inductionHypothesis head rest fewer, List.takeWhile_cons_of_pos tested,
            List.dropWhile_cons_of_pos tested, List.getLastD_cons]

/-- A walk to a node of the list. -/
theorem walk_to [DecidableEq Ptr]
    {node : Ptr} {fuel : Nat}
    (prev : Ptr)
    (spelled : Spells next null head (nodes ++ node :: others))
    (first : node ∉ nodes)
    (enough : (nodes ++ node :: others).length < fuel) :
    walk next null (fun item => decide (item ≠ node)) fuel prev head =
      some (nodes.getLastD prev, node) := by
  have passed : ∀ item ∈ nodes, decide (item ≠ node) = true := by
    intro item member
    rw [decide_eq_true_iff]
    rintro rfl
    exact first member
  rw [walk_eq prev spelled enough, List.takeWhile_append_of_pos passed,
    List.dropWhile_append_of_pos passed]
  simp

/-- The nodes met from a pointer on, up to a bound. -/
def collect [DecidableEq Ptr] (next : Ptr → Ptr) (null : Ptr) :
    (bound : Nat) → Ptr → List Ptr
  | 0, _ => []
  | bound + 1, item =>
      if item = null then [] else item :: collect next null bound (next item)

theorem Spells.collect_eq [DecidableEq Ptr]
    {bound : Nat}
    (spelled : Spells next null head nodes)
    (enough : nodes.length ≤ bound) :
    collect next null bound head = nodes := by
  induction nodes generalizing head bound with
  | nil =>
      obtain rfl : head = null := spelled
      cases bound with
      | zero => rfl
      | succ bound => exact if_pos rfl
  | cons node nodes inductionHypothesis =>
      obtain ⟨rfl, notNull, rest⟩ := spelled
      cases bound with
      | zero => simp at enough
      | succ bound =>
          rw [collect, if_neg notNull,
            inductionHypothesis rest (Nat.le_of_succ_le_succ enough)]

/-! ## Taking out and putting in -/

/-- A segment starts with its first node. -/
theorem Segment.start_mem
    (segment : Segment next null start nodes stop)
    (nonempty : nodes ≠ []) :
    start ∈ nodes := by
  cases nodes with
  | nil => exact absurd rfl nonempty
  | cons node nodes =>
      obtain ⟨rfl, -, -⟩ := segment
      exact List.mem_cons_self

/-- The place behind a segment is reached from its last node, or from the head
when the segment is empty; redirecting either leads elsewhere. -/
theorem Segment.relink [DecidableEq Ptr]
    (target : Ptr)
    (segment : Segment next null head nodes stop)
    (distinct : nodes.Nodup) :
    Segment
      (if nodes = [] then next
        else Function.update next (nodes.getLastD null) target)
      null (if nodes = [] then target else head) nodes target := by
  rcases List.eq_nil_or_concat' nodes with rfl | ⟨front, last, rfl⟩
  · rfl
  · have nonempty : front ++ [last] ≠ [] := by simp
    rw [if_neg nonempty, if_neg nonempty, List.getLastD_concat]
    refine segment.redirect fun member => ?_
    exact (List.nodup_append.mp distinct).2.2 last member last
      List.mem_cons_self rfl

/-- A list behind the place is not felt. -/
theorem Spells.behind [DecidableEq Ptr]
    {target : Ptr}
    (spelled : Spells next null head others)
    (apart : ∀ node ∈ nodes, node ∉ others) :
    Spells
      (if nodes = [] then next
        else Function.update next (nodes.getLastD null) target)
      null head others := by
  rcases List.eq_nil_or_concat' nodes with rfl | ⟨front, last, rfl⟩
  · exact spelled
  · rw [if_neg (by simp), List.getLastD_concat]
    exact Segment.update_outside spelled (apart last (by simp))

/-- Taking a node out: the head moves on when the node is the first one, and
the node before it is redirected otherwise. -/
theorem Spells.unlink [DecidableEq Ptr]
    {node : Ptr}
    (spelled : Spells next null head (nodes ++ node :: others)) :
    Spells
      (if node = head then next
        else Function.update next (nodes.getLastD null) (next node))
      null (if node = head then next node else head) (nodes ++ others) := by
  have distinct := List.nodup_append.mp spelled.nodup
  obtain ⟨middle, first, second⟩ := segment_append.mp spelled
  obtain ⟨rfl, -, rest⟩ := segment_cons.mp second
  have isFirst : middle = head ↔ nodes = [] := by
    constructor
    · rintro rfl
      by_contra nonempty
      exact distinct.2.2 middle (first.start_mem nonempty) middle
        List.mem_cons_self rfl
    · rintro rfl
      exact first.symm
  simp only [isFirst]
  refine segment_append.mpr ⟨next middle, first.relink _ distinct.1, ?_⟩
  refine Spells.behind rest fun node member later => ?_
  exact distinct.2.2 node member node (List.mem_cons_of_mem middle later) rfl

/-- Putting a node in: what pointed at the place points at the node, and the
node points at what was there. -/
theorem Spells.link [DecidableEq Ptr]
    {node : Ptr}
    (spelled : Spells next null head (nodes ++ others))
    (notNull : node ≠ null)
    (fresh : node ∉ nodes ++ others) :
    Spells
      (Function.update
        (if nodes.getLastD null = null then next
          else Function.update next (nodes.getLastD null) node)
        node (others.headD null))
      null (if nodes.getLastD null = null then node else head)
      (nodes ++ node :: others) := by
  have distinct := List.nodup_append.mp spelled.nodup
  have isFirst : nodes.getLastD null = null ↔ nodes = [] := by
    rcases List.eq_nil_or_concat' nodes with rfl | ⟨front, last, rfl⟩
    · simp
    · have present : last ≠ null := spelled.ne_null (by simp)
      simp [present]
  simp only [isFirst]
  simp only [List.mem_append, not_or] at fresh
  obtain ⟨middle, first, rest⟩ := segment_append.mp spelled
  have place : others.headD null = middle := by
    cases others with
    | nil => exact rest.symm
    | cons other others => exact rest.1.symm
  refine segment_append.mpr
    ⟨node, (first.relink node distinct.1).update_outside fresh.1, rfl,
      notNull, ?_⟩
  rw [Function.update_self, place]
  refine Segment.update_outside (Spells.behind rest ?_) fresh.2
  exact fun other member later => distinct.2.2 other member other later rfl

/-! ## Several lists in one store -/

variable {Place : Type*} {heads : Place → Ptr} {lists : Place → List Ptr}

/-- Each place has its list, and no node is on two of them. -/
structure Holds (next : Ptr → Ptr) (null : Ptr) (heads : Place → Ptr)
    (lists : Place → List Ptr) : Prop where
  /-- Every head leads to its list. -/
  spells : ∀ place, Spells next null (heads place) (lists place)
  /-- A node is on one list at most. -/
  separate : ∀ place other node, node ∈ lists place → node ∈ lists other →
    place = other

namespace Holds

/-- The node before the place is on the same list, so other lists do not feel
that it is redirected. -/
theorem update_last_of_ne [DecidableEq Ptr]
    {place other : Place} {target member : Ptr}
    (holds : Holds next null heads lists)
    (within : ∀ node ∈ nodes, node ∈ lists place)
    (different : other ≠ place)
    (listed : member ∈ lists other) :
    Function.update next (nodes.getLastD null) target member = next member := by
  refine Function.update_of_ne ?_ _ _
  rcases List.eq_nil_or_concat' nodes with rfl | ⟨front, last, rfl⟩
  · exact (holds.spells other).ne_null listed
  · rw [List.getLastD_concat]
    rintro rfl
    exact different (holds.separate other place member listed
      (within member (by simp)))

variable [DecidableEq Place] {place : Place} {node : Ptr}

/-- One list is replaced and the others are not touched. -/
theorem replace
    {changed : Place → Ptr}
    (holds : Holds next null heads lists)
    (spelled : Spells later null (changed place) nodes)
    (kept : ∀ other, other ≠ place → changed other = heads other)
    (untouched : ∀ other, other ≠ place → ∀ node ∈ lists other,
      later node = next node)
    (apart : ∀ other, other ≠ place → ∀ node ∈ nodes, node ∉ lists other) :
    Holds later null changed (Function.update lists place nodes) where
  spells := by
    intro other
    by_cases same : other = place
    · subst same
      rwa [Function.update_self]
    · rw [Function.update_of_ne same, kept other same]
      exact Segment.congr (holds.spells other) (untouched other same)
  separate := by
    intro left right node leftMember rightMember
    by_cases leftSame : left = place <;> by_cases rightSame : right = place
    · rw [leftSame, rightSame]
    · subst leftSame
      rw [Function.update_self] at leftMember
      rw [Function.update_of_ne rightSame] at rightMember
      exact absurd rightMember (apart right rightSame node leftMember)
    · subst rightSame
      rw [Function.update_self] at rightMember
      rw [Function.update_of_ne leftSame] at leftMember
      exact absurd leftMember (apart left leftSame node rightMember)
    · rw [Function.update_of_ne leftSame] at leftMember
      rw [Function.update_of_ne rightSame] at rightMember
      exact holds.separate left right node leftMember rightMember

/-- The first node of a list is left out. -/
theorem pop
    (holds : Holds next null heads lists)
    (parts : lists place = node :: others) :
    Holds next null (Function.update heads place (next node))
      (Function.update lists place others) := by
  have spelled := holds.spells place
  rw [parts] at spelled
  refine holds.replace ?_ ?_ ?_ ?_
  · rw [Function.update_self]
    exact spelled.2.2
  · intro other different
    exact Function.update_of_ne different _ heads
  · exact fun _ _ _ _ => rfl
  · intro other different member listed again
    refine different (holds.separate other place member again ?_)
    rw [parts]
    exact List.mem_cons_of_mem node listed

variable [DecidableEq Ptr]

/-- A new node in front of a list. -/
theorem push
    (place : Place)
    (holds : Holds next null heads lists)
    (notNull : node ≠ null)
    (fresh : ∀ place, node ∉ lists place) :
    Holds (Function.update next node (heads place)) null
      (Function.update heads place node)
      (Function.update lists place (node :: lists place)) := by
  refine holds.replace ?_ ?_ ?_ ?_
  · rw [Function.update_self]
    refine ⟨rfl, notNull, ?_⟩
    rw [Function.update_self]
    exact (holds.spells place).update_outside (fresh place)
  · intro other different
    exact Function.update_of_ne different node heads
  · intro other different member listed
    refine Function.update_of_ne ?_ _ _
    rintro rfl
    exact fresh other listed
  · intro other different member listed again
    rcases List.mem_cons.mp listed with rfl | old
    · exact fresh other again
    · exact different (holds.separate other place member again old)

/-- A node is taken out of a list. -/
theorem remove
    (holds : Holds next null heads lists)
    (parts : lists place = nodes ++ node :: others) :
    Holds
      (if node = heads place then next
        else Function.update next (nodes.getLastD null) (next node))
      null
      (Function.update heads place
        (if node = heads place then next node else heads place))
      (Function.update lists place (nodes ++ others)) := by
  have spelled := holds.spells place
  rw [parts] at spelled
  refine holds.replace ?_ ?_ ?_ ?_
  · rw [Function.update_self]
    exact spelled.unlink
  · intro other different
    exact Function.update_of_ne different _ heads
  · intro other different member listed
    split
    · rfl
    · refine holds.update_last_of_ne (fun node inside => ?_) different listed
      rw [parts]
      exact List.mem_append_left _ inside
  · intro other different member listed again
    refine different (holds.separate other place member again ?_)
    rw [parts]
    rcases List.mem_append.mp listed with before | after
    · exact List.mem_append_left _ before
    · exact List.mem_append_right _ (List.mem_cons_of_mem node after)

/-- A new node is put between two parts of a list. -/
theorem insert
    (holds : Holds next null heads lists)
    (parts : lists place = nodes ++ others)
    (notNull : node ≠ null)
    (fresh : ∀ place, node ∉ lists place) :
    Holds
      (Function.update
        (if nodes.getLastD null = null then next
          else Function.update next (nodes.getLastD null) node)
        node (others.headD null))
      null
      (Function.update heads place
        (if nodes.getLastD null = null then node else heads place))
      (Function.update lists place (nodes ++ node :: others)) := by
  have spelled := holds.spells place
  have outside := fresh place
  rw [parts] at spelled outside
  refine holds.replace ?_ ?_ ?_ ?_
  · rw [Function.update_self]
    exact spelled.link notNull outside
  · intro other different
    exact Function.update_of_ne different _ heads
  · intro other different member listed
    have apart : member ≠ node := by
      rintro rfl
      exact fresh other listed
    rw [Function.update_of_ne apart]
    split
    · rfl
    · refine holds.update_last_of_ne (fun node inside => ?_) different listed
      rw [parts]
      exact List.mem_append_left _ inside
  · intro other different member listed again
    rcases List.mem_append.mp listed with before | after
    · refine different (holds.separate other place member again ?_)
      rw [parts]
      exact List.mem_append_left _ before
    · rcases List.mem_cons.mp after with rfl | behind
      · exact fresh other again
      · refine different (holds.separate other place member again ?_)
        rw [parts]
        exact List.mem_append_right _ behind

end Holds

end LinkedList
