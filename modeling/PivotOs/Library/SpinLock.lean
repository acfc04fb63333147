import PivotOs.Library.Runs
import Mathlib.Logic.Function.Basic

/-!
# Spin locks

Parties carry out lists of actions in any interleaving.  Taking a lock is one
atomic step, which leaves the party where it is while the lock is taken.  The
parties enter and leave a region, in which there should be one of them at a
time: there is when all of them enter it under the same lock.
-/

universe u v

namespace SpinLock

/-- What a party does next. -/
inductive Action (Lock : Type v)
  | acquire (lock : Lock)
  | release (lock : Lock)
  | enter
  | leave
  | work

/-- What the parties still have to do, the locks, and how often a party has
entered the region without leaving it. -/
structure System (Party : Type u) (Lock : Type v) where
  /-- The actions left. -/
  todo : Party → List (Action Lock)
  /-- The locks that are set. -/
  taken : Lock → Bool
  /-- How deep a party is in the region. -/
  depth : Party → Nat

variable {Party : Type u} {Lock : Type v} [DecidableEq Party]
  {s after : System Party Lock} {party other : Party}
  {rest : List (Action Lock)} {result : (Lock → Bool) × Nat}

/-- A party goes on, with these locks and this depth. -/
def System.advance (s : System Party Lock) (party : Party)
    (rest : List (Action Lock)) (result : (Lock → Bool) × Nat) :
    System Party Lock where
  todo := Function.update s.todo party rest
  taken := result.1
  depth := Function.update s.depth party result.2

@[simp] theorem todo_advance_self :
    (s.advance party rest result).todo party = rest :=
  Function.update_self _ _ _

@[simp] theorem depth_advance_self :
    (s.advance party rest result).depth party = result.2 :=
  Function.update_self _ _ _

@[simp] theorem taken_advance :
    (s.advance party rest result).taken = result.1 := rfl

theorem todo_advance_of_ne (different : other ≠ party) :
    (s.advance party rest result).todo other = s.todo other :=
  Function.update_of_ne different _ _

theorem depth_advance_of_ne (different : other ≠ party) :
    (s.advance party rest result).depth other = s.depth other :=
  Function.update_of_ne different _ _

variable [DecidableEq Lock]

/-- The effect of an action on the locks and on the depth of the party; `none`
when the party spins. -/
def effect (taken : Lock → Bool) (depth : Nat) :
    Action Lock → Option ((Lock → Bool) × Nat)
  | .acquire lock =>
      if taken lock then none else some (Function.update taken lock true, depth)
  | .release lock => some (Function.update taken lock false, depth)
  | .enter => some (taken, depth + 1)
  | .leave => some (taken, depth - 1)
  | .work => some (taken, depth)

/-- The next step of a party. -/
def step (s : System Party Lock) (party : Party) :
    Option (System Party Lock) :=
  match s.todo party with
  | [] => none
  | action :: rest =>
      match effect s.taken (s.depth party) action with
      | none => some s
      | some result => some (s.advance party rest result)

/-- A party spins, or it carries out its next action. -/
theorem step_cases (stepped : step s party = some after) :
    after = s ∨ ∃ action rest result, s.todo party = action :: rest ∧
      effect s.taken (s.depth party) action = some result ∧
      after = s.advance party rest result := by
  unfold step at stepped
  split at stepped
  · cases stepped
  · next action rest program =>
      split at stepped
      · exact Or.inl (Option.some.inj stepped).symm
      · next result done =>
          exact Or.inr ⟨action, rest, result, program, done,
            (Option.some.inj stepped).symm⟩

/-- The system before its first step. -/
def start (programs : Party → List (Action Lock)) : System Party Lock where
  todo := programs
  taken := fun _ => false
  depth := fun _ => 0

/-- No two parties are in the region. -/
def System.Exclusive (s : System Party Lock) : Prop :=
  ∀ party other, 0 < s.depth party → 0 < s.depth other → party = other

/-! ## One lock -/

/-- The actions keep to a lock: they enter the region while they hold it and
give it back outside of the region. -/
def Guarded (lock : Lock) :
    (held : Bool) → (depth : Nat) → List (Action Lock) → Prop
  | _, _, [] => True
  | held, depth, .acquire other :: rest =>
      if other = lock then held = false ∧ Guarded lock true depth rest
      else Guarded lock held depth rest
  | held, depth, .release other :: rest =>
      if other = lock then
        held = true ∧ depth = 0 ∧ Guarded lock false depth rest
      else Guarded lock held depth rest
  | held, depth, .enter :: rest =>
      held = true ∧ Guarded lock held (depth + 1) rest
  | held, depth, .leave :: rest => Guarded lock held (depth - 1) rest
  | held, depth, .work :: rest => Guarded lock held depth rest

/-- The lock is held by a party or by nobody, and whoever is in the region
holds it. -/
def Held (lock : Lock) (s : System Party Lock) (owner : Option Party) : Prop :=
  s.taken lock = owner.isSome ∧
    ∀ party,
      Guarded lock (decide (owner = some party)) (s.depth party)
        (s.todo party) ∧
      (0 < s.depth party → owner = some party)

theorem Held.advance
    {lock : Lock} {owner after : Option Party}
    (held : Held lock s owner)
    (taken : result.1 lock = after.isSome)
    (others : ∀ other ≠ party, after = some other ↔ owner = some other)
    (guarded : Guarded lock (decide (after = some party)) result.2 rest)
    (inside : 0 < result.2 → after = some party) :
    Held lock (s.advance party rest result) after := by
  refine ⟨taken, fun other => ?_⟩
  by_cases same : other = party
  · rw [same, todo_advance_self, depth_advance_self]
    exact ⟨guarded, inside⟩
  · rw [todo_advance_of_ne same, depth_advance_of_ne same]
    simp only [others other same]
    exact held.2 other

/-- A step passes the lock on. -/
theorem Held.step
    {lock : Lock} {owner : Option Party}
    (held : Held lock s owner)
    (stepped : step s party = some after) :
    ∃ owner, Held lock after owner := by
  obtain ⟨guarded, inside⟩ := held.2 party
  rcases step_cases stepped with rfl |
    ⟨action, rest, result, program, done, rfl⟩
  · exact ⟨owner, held⟩
  rw [program] at guarded
  cases action with
  | acquire other =>
      simp only [effect, Option.ite_none_left_eq_some,
        Option.some.injEq] at done
      obtain ⟨clear, rfl⟩ := done
      by_cases same : other = lock
      · subst same
        rw [Guarded, if_pos rfl] at guarded
        have free : owner = none := by
          have isNone := held.1
          simpa [clear] using isNone.symm
        refine ⟨some party, held.advance ?_ ?_ ?_ fun _ => rfl⟩
        · exact Function.update_self _ _ _
        · intro other different
          simp [free, Ne.symm different]
        · simpa using guarded.2
      · rw [Guarded, if_neg same] at guarded
        refine ⟨owner, held.advance ?_ (fun _ _ => Iff.rfl) guarded inside⟩
        exact (Function.update_of_ne (Ne.symm same) _ _).trans held.1
  | release other =>
      obtain rfl := Option.some.inj done
      by_cases same : other = lock
      · subst same
        rw [Guarded, if_pos rfl] at guarded
        obtain ⟨holds, outside, later⟩ := guarded
        have mine : owner = some party := of_decide_eq_true holds
        refine ⟨none, held.advance ?_ ?_ ?_ fun within => ?_⟩
        · exact Function.update_self _ _ _
        · intro other different
          simp [mine, Ne.symm different]
        · simpa [outside] using later
        · exact absurd outside (Nat.ne_of_gt within)
      · rw [Guarded, if_neg same] at guarded
        refine ⟨owner, held.advance ?_ (fun _ _ => Iff.rfl) guarded inside⟩
        exact (Function.update_of_ne (Ne.symm same) _ _).trans held.1
  | enter =>
      obtain rfl := Option.some.inj done
      exact ⟨owner, held.advance held.1 (fun _ _ => Iff.rfl) guarded.2
        fun _ => of_decide_eq_true guarded.1⟩
  | leave =>
      obtain rfl := Option.some.inj done
      exact ⟨owner, held.advance held.1 (fun _ _ => Iff.rfl) guarded
        fun deeper => inside (Nat.lt_of_lt_of_le deeper (Nat.sub_le _ _))⟩
  | work =>
      obtain rfl := Option.some.inj done
      exact ⟨owner, held.advance held.1 (fun _ _ => Iff.rfl) guarded inside⟩

/-- The actions may be put in front of actions that keep to the lock. -/
def Keeps (lock : Lock) (held : Bool) (depth : Nat)
    (actions : List (Action Lock)) : Prop :=
  ∀ rest, Guarded lock held depth rest →
    Guarded lock held depth (actions ++ rest)

theorem Keeps.nil {lock : Lock} {held : Bool} {depth : Nat} :
    Keeps lock held depth [] :=
  fun _ guarded => guarded

theorem Keeps.append
    {lock : Lock} {held : Bool} {depth : Nat}
    {first second : List (Action Lock)}
    (earlier : Keeps lock held depth first)
    (later : Keeps lock held depth second) :
    Keeps lock held depth (first ++ second) := by
  intro rest guarded
  rw [List.append_assoc]
  exact earlier _ (later rest guarded)

theorem Keeps.flatMap
    {Item : Type*} {lock : Lock} {held : Bool} {depth : Nat}
    {actions : Item → List (Action Lock)}
    (items : List Item)
    (each : ∀ item ∈ items, Keeps lock held depth (actions item)) :
    Keeps lock held depth (items.flatMap actions) := by
  induction items with
  | nil => exact .nil
  | cons item items inductionHypothesis =>
      exact (each item List.mem_cons_self).append
        (inductionHypothesis fun other member =>
          each other (List.mem_cons_of_mem item member))

theorem Keeps.guarded
    {lock : Lock} {held : Bool} {depth : Nat} {actions : List (Action Lock)}
    (keeps : Keeps lock held depth actions) :
    Guarded lock held depth actions := by
  have whole := keeps [] (by rw [Guarded]; trivial)
  rwa [List.append_nil] at whole

/-- Parties that keep to one lock are never in the region together. -/
theorem exclusive_of_guarded
    {programs : Party → List (Action Lock)} {schedule : List Party}
    {final : System Party Lock}
    (lock : Lock)
    (guarded : ∀ party, Guarded lock false 0 (programs party))
    (ran : Runs.run step (start programs) schedule = some final) :
    final.Exclusive := by
  have initially : Held lock (start programs) none :=
    ⟨rfl, fun party => ⟨guarded party, fun within => absurd within
      (Nat.lt_irrefl 0)⟩⟩
  obtain ⟨owner, held⟩ := Runs.run_invariant
    (fun s : System Party Lock => ∃ owner, Held lock s owner)
    (by
      rintro s party next ⟨owner, held⟩ stepped
      exact held.step stepped)
    ⟨none, initially⟩ ran
  intro party other within also
  have mine := (held.2 party).2 within
  have yours := (held.2 other).2 also
  exact Option.some.inj (mine.symm.trans yours)

/-! ## One party -/

/-- A party whose actions never enter the region stays outside. -/
theorem depth_eq_zero
    {programs : Party → List (Action Lock)} {schedule : List Party}
    {final : System Party Lock} {party : Party}
    (outside : Action.enter ∉ programs party)
    (ran : Runs.run step (start programs) schedule = some final) :
    final.depth party = 0 := by
  have kept := Runs.run_invariant
    (fun s : System Party Lock =>
      Action.enter ∉ s.todo party ∧ s.depth party = 0)
    (by
      rintro s mover next ⟨outside, zero⟩ stepped
      rcases step_cases stepped with rfl |
        ⟨action, rest, result, program, done, rfl⟩
      · exact ⟨outside, zero⟩
      by_cases same : party = mover
      · subst same
        rw [program] at outside
        rw [zero] at done
        rw [todo_advance_self, depth_advance_self]
        refine ⟨fun member => outside (List.mem_cons_of_mem _ member), ?_⟩
        cases action with
        | acquire lock =>
            simp only [effect, Option.ite_none_left_eq_some,
              Option.some.injEq] at done
            rw [← done.2]
        | release lock => rw [← Option.some.inj done]
        | enter => exact absurd List.mem_cons_self outside
        | leave => rw [← Option.some.inj done]
        | work => rw [← Option.some.inj done]
      · rw [todo_advance_of_ne same, depth_advance_of_ne same]
        exact ⟨outside, zero⟩)
    ⟨outside, rfl⟩ ran
  exact kept.2

/-- A single party that enters the region is alone there. -/
theorem exclusive_of_single
    {programs : Party → List (Action Lock)} {schedule : List Party}
    {final : System Party Lock}
    (single : Party)
    (outside : ∀ party ≠ single, Action.enter ∉ programs party)
    (ran : Runs.run step (start programs) schedule = some final) :
    final.Exclusive := by
  have only : ∀ party, 0 < final.depth party → party = single := by
    intro party within
    by_contra different
    have zero := depth_eq_zero (outside party different) ran
    omega
  intro party other within also
  rw [only party within, only other also]

/-! ## Schedules -/

/-- What a party does that does not have to wait. -/
def alone (state : (Lock → Bool) × Nat) (actions : List (Action Lock)) :
    Option ((Lock → Bool) × Nat) :=
  Runs.run (fun state action => effect state.1 state.2 action) state actions

/-- With these locks taken, the actions leave everything as it was. -/
def Neutral (taken : Lock → Bool) (actions : List (Action Lock)) : Prop :=
  ∀ depth, alone (taken, depth) actions = some (taken, depth)

theorem alone_append
    {state middle : (Lock → Bool) × Nat} {first second : List (Action Lock)}
    (done : alone state first = some middle) :
    alone state (first ++ second) = alone middle second := by
  rw [alone, Runs.run_append_eq]
  exact (congrArg (Option.bind · _) done).trans (Option.bind_some _ _)

theorem Neutral.append
    {taken : Lock → Bool} {first second : List (Action Lock)}
    (earlier : Neutral taken first)
    (later : Neutral taken second) :
    Neutral taken (first ++ second) := fun depth =>
  (alone_append (earlier depth)).trans (later depth)

theorem Neutral.flatMap
    {Item : Type*} {taken : Lock → Bool} {actions : Item → List (Action Lock)}
    (items : List Item)
    (each : ∀ item ∈ items, Neutral taken (actions item)) :
    Neutral taken (items.flatMap actions) := by
  induction items with
  | nil => exact fun _ => rfl
  | cons item items inductionHypothesis =>
      exact (each item List.mem_cons_self).append
        (inductionHypothesis fun other member =>
          each other (List.mem_cons_of_mem item member))

/-- Actions under a lock that is free. -/
theorem Neutral.lock
    {taken : Lock → Bool} {lock : Lock} {actions : List (Action Lock)}
    (clear : taken lock = false)
    (neutral : Neutral (Function.update taken lock true) actions) :
    Neutral taken (.acquire lock :: actions ++ [.release lock]) := by
  intro depth
  have locked : alone (taken, depth) [.acquire lock] =
      some (Function.update taken lock true, depth) := by
    simp [alone, Runs.run, effect, clear]
  rw [List.cons_append, ← List.singleton_append, alone_append locked,
    alone_append (neutral depth)]
  simp [alone, Runs.run, effect, ← clear]

/-- Actions in the region. -/
theorem Neutral.inside
    {taken : Lock → Bool} {actions : List (Action Lock)}
    (neutral : Neutral taken actions) :
    Neutral taken (.enter :: actions ++ [.leave]) := by
  intro depth
  have entered : alone (taken, depth) [.enter] = some (taken, depth + 1) := rfl
  rw [List.cons_append, ← List.singleton_append, alone_append entered,
    alone_append (neutral (depth + 1))]
  rfl

/-- A party that does not have to wait may carry out its actions in a row. -/
theorem run_alone
    {actions : List (Action Lock)}
    (free : alone (s.taken, s.depth party) actions = some result)
    (program : s.todo party = actions ++ rest) :
    Runs.run step s (List.replicate actions.length party) =
      some (s.advance party rest result) := by
  induction actions generalizing s with
  | nil =>
      obtain rfl := Option.some.inj free
      rw [List.nil_append] at program
      simp [System.advance, ← program]
  | cons action actions inductionHypothesis =>
      obtain ⟨middle, done, later⟩ := Runs.run_cons.mp free
      have stepped : step s party =
          some (s.advance party (actions ++ rest) middle) := by
        rw [step, program]
        simp only [List.cons_append, done]
      have free : alone ((s.advance party (actions ++ rest) middle).taken,
          (s.advance party (actions ++ rest) middle).depth party) actions =
            some result := by
        rw [taken_advance, depth_advance_self]
        exact later
      have goesOn := inductionHypothesis free todo_advance_self
      rw [List.length_cons, List.replicate_succ, Runs.run, stepped,
        Option.bind_some, goesOn]
      simp [System.advance]

/-- Where a party comes that does not have to wait. -/
theorem exists_run_alone
    {taken : Lock → Bool} {depth : Nat} {actions : List (Action Lock)}
    (locks : s.taken = taken)
    (deep : s.depth party = depth)
    (program : s.todo party = actions ++ rest)
    (free : alone (taken, depth) actions = some result) :
    ∃ schedule after, Runs.run step s schedule = some after ∧
      after.taken = result.1 ∧ after.depth party = result.2 ∧
      after.todo party = rest ∧
      ∀ other ≠ party,
        after.depth other = s.depth other ∧ after.todo other = s.todo other := by
  subst locks deep
  exact ⟨_, _, run_alone free program, rfl, depth_advance_self,
    todo_advance_self, fun other different =>
      ⟨depth_advance_of_ne different, todo_advance_of_ne different⟩⟩

end SpinLock
