import Mathlib.Data.List.Induction
import Mathlib.Data.List.Nodup
import Mathlib.Logic.Basic
import Mathlib.Tactic.Cases

/-!
# Radix trees in a store of nodes

A store gives every node an array of entries, and an entry may point to
another node.  A tree is read off the store from a root: a path of indices
leads to a node, or stops at an entry that points nowhere.  Paths are written
with the last step first, so that the recursion follows the list.

Only paths shorter than a fixed depth count as nodes; the entries of the
deepest nodes are leaves, whatever they would point to.  The tree has its nodes
in distinct places when no two such paths meet.  Two updates keep that: writing
a leaf, and linking a cleared node that was not in the tree.  Then a walk
through all entries visits every node once.
-/

namespace RadixTree

variable {Node Index Entry : Type*}

/-- How entries point to nodes. -/
structure Links (Node Entry : Type*) where
  /-- The node an entry points to. -/
  next : Entry → Option Node
  /-- The entry of a cleared node. -/
  blank : Entry
  /-- It points nowhere. -/
  next_blank : next blank = none

variable (links : Links Node Entry)

/-- The node that a path leads to. -/
def nodeAt (store : Node → Index → Entry) (root : Node) :
    List Index → Option Node
  | [] => some root
  | i :: path =>
      (nodeAt store root path).bind fun node => links.next (store node i)

/-- The entry at the end of a path, blank when the path stops short. -/
def leafAt (store : Node → Index → Entry) (root : Node) : List Index → Entry
  | [] => links.blank
  | i :: path =>
      (nodeAt links store root path).elim links.blank fun node => store node i

/-- A node of the tree. -/
def Member (store : Node → Index → Entry) (root : Node) (depth : Nat)
    (node : Node) : Prop :=
  ∃ path : List Index,
    path.length < depth ∧ nodeAt links store root path = some node

/-- No node is reached in two ways. -/
def Distinct (store : Node → Index → Entry) (root : Node) (depth : Nat) :
    Prop :=
  ∀ left right : List Index, ∀ node,
    left.length < depth → right.length < depth →
      nodeAt links store root left = some node →
      nodeAt links store root right = some node → left = right

variable {links}

section Basics

variable {store : Node → Index → Entry} {root : Node}

@[simp] theorem nodeAt_nil : nodeAt links store root [] = some root := rfl

theorem nodeAt_cons_of_some
    {i : Index} {path : List Index} {node : Node}
    (reached : nodeAt links store root path = some node) :
    nodeAt links store root (i :: path) = links.next (store node i) := by
  rw [nodeAt, reached, Option.bind_some]

theorem leafAt_of_some
    {i : Index} {path : List Index} {node : Node}
    (reached : nodeAt links store root path = some node) :
    leafAt links store root (i :: path) = store node i := by
  rw [leafAt, reached, Option.elim_some]

theorem leafAt_of_none
    {i : Index} {path : List Index}
    (missing : nodeAt links store root path = none) :
    leafAt links store root (i :: path) = links.blank := by
  rw [leafAt, missing, Option.elim_none]

/-- The root is a node. -/
theorem member_root {depth : Nat} (positive : 0 < depth) :
    Member links store root depth root :=
  ⟨[], positive, rfl⟩

/-- A path that leads to a node passes nodes all the way. -/
theorem nodeAt_isSome_of_suffix
    {short path : List Index}
    (suffix : short <:+ path)
    (present : (nodeAt links store root path).isSome) :
    (nodeAt links store root short).isSome := by
  induction path with
  | nil =>
      rw [List.suffix_nil.mp suffix]
      rfl
  | cons i path inductionHypothesis =>
      rcases List.suffix_cons_iff.mp suffix with rfl | behind
      · exact present
      · apply inductionHypothesis behind
        rw [nodeAt] at present
        exact Option.isSome_of_isSome_bind present

/-- A cleared root has no children. -/
theorem nodeAt_of_cleared
    (cleared : ∀ i, store root i = links.blank)
    (i : Index) (path : List Index) :
    nodeAt links store root (i :: path) = none := by
  induction path generalizing i with
  | nil => rw [nodeAt_cons_of_some nodeAt_nil, cleared, links.next_blank]
  | cons j path inductionHypothesis =>
      rw [nodeAt, inductionHypothesis j, Option.bind_none]

/-- A cleared root is a tree of one node. -/
theorem Distinct.of_cleared
    {depth : Nat}
    (cleared : ∀ i, store root i = links.blank) :
    Distinct links store root depth := by
  intro left right node _ _ leftReached rightReached
  cases left with
  | nil =>
      cases right with
      | nil => rfl
      | cons i path =>
          rw [nodeAt_of_cleared cleared] at rightReached
          contradiction
  | cons i path =>
      rw [nodeAt_of_cleared cleared] at leftReached
      contradiction

theorem member_of_cleared
    {depth : Nat} {node : Node}
    (cleared : ∀ i, store root i = links.blank)
    (member : Member links store root depth node) :
    node = root := by
  obtain ⟨path, -, reached⟩ := member
  cases path with
  | nil => exact (Option.some.inj reached).symm
  | cons i path =>
      rw [nodeAt_of_cleared cleared] at reached
      contradiction

/-! ## Stores that agree on the nodes of a tree -/

section Agree

variable {other : Node → Index → Entry} {depth : Nat}
variable
  (agree : ∀ node, Member links store root depth node →
    other node = store node)

include agree

theorem nodeAt_of_agree
    {path : List Index}
    (short : path.length ≤ depth) :
    nodeAt links other root path = nodeAt links store root path := by
  induction path with
  | nil => rfl
  | cons i path inductionHypothesis =>
      have shorter : path.length < depth := short
      have before := inductionHypothesis (Nat.le_of_lt shorter)
      cases here : nodeAt links store root path with
      | none =>
          rw [nodeAt, nodeAt, before, here, Option.bind_none, Option.bind_none]
      | some node =>
          rw [nodeAt_cons_of_some (before.trans here), nodeAt_cons_of_some here,
            agree node ⟨path, shorter, here⟩]

theorem leafAt_of_agree
    {i : Index} {path : List Index}
    (short : path.length < depth) :
    leafAt links other root (i :: path) =
      leafAt links store root (i :: path) := by
  have same := nodeAt_of_agree agree (Nat.le_of_lt short)
  cases here : nodeAt links store root path with
  | none => rw [leafAt_of_none (same.trans here), leafAt_of_none here]
  | some node =>
      rw [leafAt_of_some (same.trans here), leafAt_of_some here,
        agree node ⟨path, short, here⟩]

theorem member_of_agree
    {node : Node} :
    Member links other root depth node ↔ Member links store root depth node := by
  constructor
  · rintro ⟨path, short, found⟩
    exact ⟨path, short, (nodeAt_of_agree agree (Nat.le_of_lt short)).symm.trans found⟩
  · rintro ⟨path, short, found⟩
    exact ⟨path, short, (nodeAt_of_agree agree (Nat.le_of_lt short)).trans found⟩

theorem Distinct.of_agree
    (distinct : Distinct links store root depth) :
    Distinct links other root depth := by
  intro left right node leftShort rightShort leftFound rightFound
  rw [nodeAt_of_agree agree (Nat.le_of_lt leftShort)] at leftFound
  rw [nodeAt_of_agree agree (Nat.le_of_lt rightShort)] at rightFound
  exact distinct left right node leftShort rightShort leftFound rightFound

end Agree

end Basics

section Updates

variable [DecidableEq Node] [DecidableEq Index]

/-- Overwrite one entry. -/
def write (store : Node → Index → Entry) (node : Node) (i : Index)
    (entry : Entry) : Node → Index → Entry :=
  fun other j => if other = node ∧ j = i then entry else store other j

variable (links) in
/-- Clear a node. -/
def clear (store : Node → Index → Entry) (node : Node) :
    Node → Index → Entry :=
  fun other j => if other = node then links.blank else store other j

variable {store : Node → Index → Entry} {root : Node} {depth : Nat}

@[simp] theorem write_same (node : Node) (i : Index) (entry : Entry) :
    write store node i entry node i = entry := by
  simp [write]

theorem write_other
    {node other : Node} {i j : Index} {entry : Entry}
    (different : ¬ (other = node ∧ j = i)) :
    write store node i entry other j = store other j := by
  simp [write, different]

/-! ## Writing an entry -/

section Leaf

variable {node : Node} {i : Index} {path : List Index} {entry : Entry}

/-- Writing an entry changes only the paths that go through it. -/
theorem nodeAt_write_of_not_suffix
    (distinct : Distinct links store root depth)
    (short : path.length < depth)
    (reached : nodeAt links store root path = some node)
    (other : List Index)
    (otherShort : other.length ≤ depth)
    (apart : ¬ i :: path <:+ other) :
    nodeAt links (write store node i entry) root other =
      nodeAt links store root other := by
  induction other with
  | nil => rfl
  | cons j other inductionHypothesis =>
      have shorter : other.length + 1 ≤ depth := otherShort
      rw [nodeAt, nodeAt, inductionHypothesis (by omega) fun suffix =>
        apart (suffix.trans (List.suffix_cons j other))]
      cases here : nodeAt links store root other with
      | none => rfl
      | some parent =>
          rw [Option.bind_some, Option.bind_some, write_other]
          rintro ⟨same, rfl⟩
          have paths := distinct other path node (by omega) short
            (same ▸ here) reached
          exact apart (paths ▸ List.suffix_rfl)

/-- No node lies behind a leaf. -/
theorem nodeAt_write
    (distinct : Distinct links store root depth)
    (deepest : path.length + 1 = depth)
    (reached : nodeAt links store root path = some node)
    (other : List Index)
    (short : other.length < depth) :
    nodeAt links (write store node i entry) root other =
      nodeAt links store root other := by
  apply nodeAt_write_of_not_suffix distinct (by omega) reached other
    (Nat.le_of_lt short)
  intro suffix
  have lengths := suffix.length_le
  rw [List.length_cons] at lengths
  omega

theorem Distinct.write
    (distinct : Distinct links store root depth)
    (deepest : path.length + 1 = depth)
    (reached : nodeAt links store root path = some node) :
    Distinct links (write store node i entry) root depth := by
  intro left right meeting leftShort rightShort leftReached rightReached
  rw [nodeAt_write distinct deepest reached left leftShort] at leftReached
  rw [nodeAt_write distinct deepest reached right rightShort] at rightReached
  exact distinct left right meeting leftShort rightShort leftReached
    rightReached

theorem member_write_iff
    (distinct : Distinct links store root depth)
    (deepest : path.length + 1 = depth)
    (reached : nodeAt links store root path = some node)
    {other : Node} :
    Member links (write store node i entry) root depth other ↔
      Member links store root depth other := by
  constructor
  · rintro ⟨way, short, found⟩
    rw [nodeAt_write distinct deepest reached way short] at found
    exact ⟨way, short, found⟩
  · rintro ⟨way, short, found⟩
    refine ⟨way, short, ?_⟩
    rw [nodeAt_write distinct deepest reached way short, found]

/-- Writing a leaf changes that leaf and no other. -/
theorem leafAt_write
    (distinct : Distinct links store root depth)
    (deepest : path.length + 1 = depth)
    (reached : nodeAt links store root path = some node)
    {j : Index} {other : List Index}
    (full : other.length + 1 = depth) :
    leafAt links (write store node i entry) root (j :: other) =
      if other = path ∧ j = i then entry
      else leafAt links store root (j :: other) := by
  have same : nodeAt links (write store node i entry) root other =
      nodeAt links store root other :=
    nodeAt_write distinct deepest reached other (by omega)
  cases here : nodeAt links store root other with
  | none =>
      rw [leafAt_of_none (same.trans here), leafAt_of_none here, if_neg]
      rintro ⟨rfl, -⟩
      rw [reached] at here
      contradiction
  | some found =>
      rw [leafAt_of_some (same.trans here), leafAt_of_some here]
      by_cases target : other = path ∧ j = i
      · obtain ⟨rfl, rfl⟩ := target
        obtain rfl := Option.some.inj (here.symm.trans reached)
        rw [write_same, if_pos ⟨rfl, rfl⟩]
      · rw [if_neg target, write_other]
        rintro ⟨rfl, rfl⟩
        exact target ⟨distinct other path found (by omega) (by omega) here
          reached, rfl⟩

end Leaf

/-! ## Linking a node -/

section Link

variable {node fresh : Node} {i : Index} {path : List Index} {entry : Entry}

variable (links) in
/-- Point an entry at a node, then clear the node. -/
def link (store : Node → Index → Entry) (node : Node) (i : Index)
    (entry : Entry) (fresh : Node) : Node → Index → Entry :=
  clear links (write store node i entry) fresh

theorem link_fresh (j : Index) :
    link links store node i entry fresh fresh j = links.blank := by
  simp [link, clear]

/-- The node may as well be cleared first. -/
theorem write_clear_eq_link (old : node ≠ fresh) :
    write (clear links store fresh) node i entry =
      link links store node i entry fresh := by
  funext other j
  simp only [link, clear, write]
  by_cases here : other = fresh
  · rw [if_pos here, if_pos here, if_neg]
    intro same
    exact old (same.1.symm.trans here)
  · rw [if_neg here, if_neg here]

theorem link_other
    {other : Node} {j : Index}
    (old : other ≠ fresh)
    (different : ¬ (other = node ∧ j = i)) :
    link links store node i entry fresh other j = store other j := by
  rw [link, clear, if_neg old, write_other different]

theorem link_parent (old : node ≠ fresh) :
    link links store node i entry fresh node i = entry := by
  rw [link, clear, if_neg old, write_same]

variable (links) in
/-- In a tree one node is hung at a place where there was none, and everything
else stays. -/
structure Hangs (before after : Node → Index → Entry) (root : Node)
    (depth : Nat) (place : List Index) (fresh : Node) : Prop where
  /-- It is a tree again. -/
  distinct : Distinct links after root depth
  /-- The node is there. -/
  found : nodeAt links after root place = some fresh
  /-- Old nodes keep their places. -/
  keeps : ∀ path node, path.length < depth →
    nodeAt links before root path = some node →
      nodeAt links after root path = some node
  /-- No other place is new. -/
  reached : ∀ path node, path.length < depth →
    nodeAt links after root path = some node →
      nodeAt links before root path = some node ∨ path = place
  /-- No other node is new. -/
  member_iff : ∀ node, Member links after root depth node ↔
    Member links before root depth node ∨ node = fresh
  /-- The leaves stay. -/
  leaf_eq : ∀ j path, path.length + 1 = depth →
    leafAt links after root (j :: path) = leafAt links before root (j :: path)

variable
  (distinct : Distinct links store root depth)
  (inner : path.length + 1 < depth)
  (reached : nodeAt links store root path = some node)
  (missing : nodeAt links store root (i :: path) = none)
  (points : links.next entry = some fresh)
  (unseen : ¬ Member links store root depth fresh)

include distinct inner reached missing points unseen

/-- Linking adds one path. -/
theorem nodeAt_link
    (other : List Index)
    (short : other.length < depth) :
    nodeAt links (link links store node i entry fresh) root other =
      if other = i :: path then some fresh
      else nodeAt links store root other := by
  -- The new node is cleared, so the induction on the path never goes past
  -- it; elsewhere the two stores differ in the one entry that is linked.
  induction other with
  | nil => simp
  | cons j other inductionHypothesis =>
      have shorter : other.length + 1 < depth := short
      rw [nodeAt, inductionHypothesis (by omega)]
      by_cases new : other = i :: path
      · subst new
        rw [if_pos rfl, Option.bind_some, link_fresh, links.next_blank,
          if_neg (by simp), nodeAt, missing, Option.bind_none]
      · rw [if_neg new]
        cases here : nodeAt links store root other with
        | none =>
            rw [Option.bind_none, if_neg, nodeAt, here, Option.bind_none]
            rintro target
            obtain ⟨-, rfl⟩ := List.cons.inj target
            rw [reached] at here
            contradiction
        | some parent =>
            have old : parent ≠ fresh := by
              rintro rfl
              exact unseen ⟨other, by omega, here⟩
            rw [Option.bind_some]
            by_cases target : j :: other = i :: path
            · obtain ⟨rfl, rfl⟩ := List.cons.inj target
              obtain rfl := Option.some.inj (here.symm.trans reached)
              rw [link_parent old, points, if_pos rfl]
            · rw [if_neg target, nodeAt_cons_of_some here, link_other old]
              rintro ⟨rfl, rfl⟩
              have paths := distinct other path parent (by omega) (by omega)
                here reached
              exact target (by rw [paths])

/-- Old nodes keep their places. -/
theorem nodeAt_link_of_some
    {other : List Index} {old : Node}
    (short : other.length < depth)
    (there : nodeAt links store root other = some old) :
    nodeAt links (link links store node i entry fresh) root other =
      some old := by
  rw [nodeAt_link distinct inner reached missing points unseen other short,
    if_neg, there]
  rintro rfl
  rw [missing] at there
  contradiction

theorem member_link_iff {other : Node} :
    Member links (link links store node i entry fresh) root depth other ↔
      Member links store root depth other ∨ other = fresh := by
  have step := fun (way : List Index) (short : way.length < depth) =>
    nodeAt_link distinct inner reached missing points unseen way short
  constructor
  · rintro ⟨way, short, found⟩
    rw [step way short] at found
    split at found
    · exact Or.inr (Option.some.inj found).symm
    · exact Or.inl ⟨way, short, found⟩
  · rintro (⟨way, short, found⟩ | rfl)
    · exact ⟨way, short, nodeAt_link_of_some distinct inner reached missing
        points unseen short found⟩
    · refine ⟨i :: path, inner, ?_⟩
      rw [step (i :: path) inner, if_pos rfl]

theorem Distinct.link :
    Distinct links (link links store node i entry fresh) root depth := by
  have step := fun (way : List Index) (short : way.length < depth) =>
    nodeAt_link distinct inner reached missing points unseen way short
  intro left right meeting leftShort rightShort leftReached rightReached
  rw [step left leftShort] at leftReached
  rw [step right rightShort] at rightReached
  split at leftReached
  · rename_i leftNew
    split at rightReached
    · rename_i rightNew
      rw [leftNew, rightNew]
    · obtain rfl := Option.some.inj leftReached
      exact absurd ⟨right, rightShort, rightReached⟩ unseen
  · split at rightReached
    · obtain rfl := Option.some.inj rightReached
      exact absurd ⟨left, leftShort, leftReached⟩ unseen
    · exact distinct left right meeting leftShort rightShort leftReached
        rightReached

/-- Linking a cleared node changes no leaf. -/
theorem leafAt_link
    {j : Index} {other : List Index}
    (full : other.length + 1 = depth) :
    leafAt links (RadixTree.link links store node i entry fresh) root
        (j :: other) =
      leafAt links store root (j :: other) := by
  have step := nodeAt_link distinct inner reached missing points unseen other
    (by omega)
  by_cases new : other = i :: path
  · subst new
    rw [if_pos rfl] at step
    rw [leafAt_of_some step, link_fresh, leafAt_of_none missing]
  · rw [if_neg new] at step
    cases here : nodeAt links store root other with
    | none => rw [leafAt_of_none (step.trans here), leafAt_of_none here]
    | some found =>
        rw [leafAt_of_some (step.trans here), leafAt_of_some here, link_other]
        · rintro rfl
          exact unseen ⟨other, by omega, here⟩
        · rintro ⟨rfl, -⟩
          have paths := distinct other path found (by omega) (by omega) here
            reached
          rw [paths] at full
          omega

theorem link_hangs :
    Hangs links store (link links store node i entry fresh) root depth
      (i :: path) fresh where
  distinct := Distinct.link distinct inner reached missing points unseen
  found := by
    rw [nodeAt_link distinct inner reached missing points unseen (i :: path)
      inner, if_pos rfl]
  keeps := fun _ _ =>
    nodeAt_link_of_some distinct inner reached missing points unseen
  reached := by
    intro way other short there
    rw [nodeAt_link distinct inner reached missing points unseen way short]
      at there
    split at there
    · exact Or.inr ‹_›
    · exact Or.inl there
  member_iff := fun _ =>
    member_link_iff distinct inner reached missing points unseen
  leaf_eq := fun _ _ full =>
    leafAt_link distinct inner reached missing points unseen full

end Link

end Updates

/-! ## Walking through a tree -/

section Walk

variable {store : Node → Index → Entry} {root : Node}

variable (links) in
/-- The nodes below a node and the node itself, children before their
parent. -/
def postorder (store : Node → Index → Entry) (indices : List Index) :
    (depth : Nat) → Node → List Node
  | 0, _ => []
  | depth + 1, node =>
      (indices.flatMap fun i =>
        (links.next (store node i)).elim []
          (postorder store indices depth)) ++ [node]

/-- The first step of a path leads to a child. -/
theorem nodeAt_append_singleton (path : List Index) (i : Index) :
    nodeAt links store root (path ++ [i]) =
      (links.next (store root i)).bind fun child =>
        nodeAt links store child path := by
  induction path with
  | nil =>
      rw [List.nil_append, nodeAt_cons_of_some nodeAt_nil]
      cases links.next (store root i) <;> rfl
  | cons j path inductionHypothesis =>
      rw [List.cons_append, nodeAt, inductionHypothesis, Option.bind_assoc]
      rfl

/-- A node below the root is below one of its children. -/
theorem member_succ_iff {depth : Nat} {node : Node} :
    Member links store root (depth + 1) node ↔
      node = root ∨ ∃ i child, links.next (store root i) = some child ∧
        Member links store child depth node := by
  constructor
  · rintro ⟨path, short, reached⟩
    cases path using List.reverseRecOn with
    | nil => exact Or.inl (Option.some.inj reached).symm
    | append_singleton path i =>
        rw [nodeAt_append_singleton] at reached
        obtain ⟨child, points, below⟩ := Option.bind_eq_some_iff.mp reached
        rw [List.length_append, List.length_singleton] at short
        exact Or.inr ⟨i, child, points, path, by omega, below⟩
  · rintro (rfl | ⟨i, child, points, path, short, reached⟩)
    · exact member_root (Nat.succ_pos _)
    · refine ⟨path ++ [i], by simpa using short, ?_⟩
      rw [nodeAt_append_singleton, points, Option.bind_some, reached]

/-- The subtree of a child is a tree. -/
theorem Distinct.child
    {depth : Nat} {i : Index} {child : Node}
    (distinct : Distinct links store root (depth + 1))
    (points : links.next (store root i) = some child) :
    Distinct links store child depth := by
  intro left right node leftShort rightShort leftReached rightReached
  have below : ∀ path, nodeAt links store root (path ++ [i]) =
      nodeAt links store child path := by
    intro path
    rw [nodeAt_append_singleton, points, Option.bind_some]
  have same := distinct (left ++ [i]) (right ++ [i]) node
    (by simpa using leftShort) (by simpa using rightShort)
    ((below left).trans leftReached) ((below right).trans rightReached)
  exact List.append_cancel_right same

section AllIndices

variable {indices : List Index}
variable (complete : ∀ i, i ∈ indices)

include complete

/-- The walk visits the nodes of the tree. -/
theorem mem_postorder_iff {depth : Nat} {node : Node} :
    node ∈ postorder links store indices depth root ↔
      Member links store root depth node := by
  induction depth generalizing root with
  | zero => simp [postorder, Member]
  | succ depth inductionHypothesis =>
      rw [postorder, List.mem_append, List.mem_flatMap, List.mem_singleton,
        member_succ_iff, or_comm]
      refine or_congr_right ?_
      constructor
      · rintro ⟨i, -, visited⟩
        cases points : links.next (store root i) with
        | none => simp [points] at visited
        | some child =>
            rw [points, Option.elim_some, inductionHypothesis] at visited
            exact ⟨i, child, points, visited⟩
      · rintro ⟨i, child, points, member⟩
        refine ⟨i, complete i, ?_⟩
        rw [points, Option.elim_some, inductionHypothesis]
        exact member

/-- It visits none of them twice. -/
theorem Distinct.postorder_nodup
    {depth : Nat}
    (nodup : indices.Nodup)
    (distinct : Distinct links store root depth) :
    (postorder links store indices depth root).Nodup := by
  induction depth generalizing root with
  | zero => exact List.nodup_nil
  | succ depth inductionHypothesis =>
      have visited : ∀ i node,
          node ∈ (links.next (store root i)).elim []
            (postorder links store indices depth) →
          ∃ path, path.length < depth ∧
            nodeAt links store root (path ++ [i]) = some node := by
        intro i node member
        cases points : links.next (store root i) with
        | none => simp [points] at member
        | some child =>
            rw [points, Option.elim_some, mem_postorder_iff complete] at member
            obtain ⟨path, short, reached⟩ := member
            refine ⟨path, short, ?_⟩
            rw [nodeAt_append_singleton, points, Option.bind_some, reached]
      rw [postorder, List.nodup_append']
      refine ⟨List.nodup_flatMap.mpr ⟨?_, ?_⟩, List.nodup_singleton root, ?_⟩
      · intro i _
        cases points : links.next (store root i) with
        | none => exact List.nodup_nil
        | some child => exact inductionHypothesis (distinct.child points)
      · -- Paths that start with different steps meet nowhere.
        refine nodup.imp fun {i j} different => ?_
        intro node left right
        obtain ⟨leftPath, leftShort, leftReached⟩ := visited i node left
        obtain ⟨rightPath, rightShort, rightReached⟩ := visited j node right
        have same := distinct _ _ node (by simpa using leftShort)
          (by simpa using rightShort) leftReached rightReached
        exact different (by simpa using congrArg List.getLast? same)
      · intro node below here
        obtain ⟨i, -, member⟩ := List.mem_flatMap.mp below
        obtain ⟨path, short, reached⟩ := visited i node member
        obtain rfl := List.mem_singleton.mp here
        have same := distinct _ [] node (by simpa using short)
          (by simp) reached rfl
        simp at same

end AllIndices

end Walk

end RadixTree
