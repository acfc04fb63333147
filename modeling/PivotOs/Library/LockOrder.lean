import PivotOs.Library.SpinLock
import Mathlib.Algebra.BigOperators.Fin
import Mathlib.Algebra.Order.BigOperators.Group.Finset
import Mathlib.Data.Fintype.Basic

/-!
# Lock order and interrupts

An interrupt makes a party carry out other actions before it goes on, or instead
of going on.  When locks are taken in the order of a rank, and interrupts take
locks above those that their party holds, some party can always go on, so every
fair schedule ends.  When an interrupt takes a lock that its party holds, no
schedule ends.
-/

universe u v

namespace SpinLock

variable {Party : Type u} {Lock : Type v} [DecidableEq Lock]

/-- What can happen to a system: a party goes on, it has to do other actions
first, or it drops what it has to do for other actions. -/
inductive Event (Party : Type u) (Lock : Type v)
  | step (party : Party)
  | interrupt (party : Party) (handler : List (Action Lock))
  | switch (party : Party) (handler : List (Action Lock))

/-- Every party has finished. -/
def System.Finished (s : System Party Lock) : Prop := ∀ party, s.todo party = []

/-- The first thing that is done to a lock. -/
inductive Touch
  | acquires
  | releases
  deriving DecidableEq

/-- The first action on a lock. -/
def firstTouch (lock : Lock) : List (Action Lock) → Option Touch
  | [] => none
  | .acquire other :: rest =>
      if other = lock then some .acquires else firstTouch lock rest
  | .release other :: rest =>
      if other = lock then some .releases else firstTouch lock rest
  | .enter :: rest => firstTouch lock rest
  | .leave :: rest => firstTouch lock rest
  | .work :: rest => firstTouch lock rest

/-- A party holds a lock: it gives it back before it takes it again. -/
def System.Holds (s : System Party Lock) (party : Party) (lock : Lock) : Prop :=
  firstTouch lock (s.todo party) = some .releases

instance (s : System Party Lock) (party : Party) (lock : Lock) :
    Decidable (s.Holds party lock) :=
  inferInstanceAs (Decidable (_ = _))

theorem firstTouch_append
    (lock : Lock) (first second : List (Action Lock)) :
    firstTouch lock (first ++ second) =
      (firstTouch lock first).or (firstTouch lock second) := by
  induction first with
  | nil => rfl
  | cons action rest inductionHypothesis =>
      cases action with
      | acquire other =>
          rw [List.cons_append, firstTouch, firstTouch]
          split
          · rfl
          · exact inductionHypothesis
      | release other =>
          rw [List.cons_append, firstTouch, firstTouch]
          split
          · rfl
          · exact inductionHypothesis
      | enter => exact inductionHypothesis
      | leave => exact inductionHypothesis
      | work => exact inductionHypothesis

/-! ## Discipline -/

/-- The actions take locks in the order of their ranks and give back what they
have taken, once each. -/
def Disciplined (rank : Lock → Nat) :
    (held : Lock → Bool) → List (Action Lock) → Prop
  | held, [] => ∀ lock, held lock = false
  | held, .acquire lock :: rest =>
      (∀ other, held other = true → rank other < rank lock) ∧
        Disciplined rank (Function.update held lock true) rest
  | held, .release lock :: rest =>
      held lock = true ∧
        Disciplined rank (Function.update held lock false) rest
  | held, .enter :: rest => Disciplined rank held rest
  | held, .leave :: rest => Disciplined rank held rest
  | held, .work :: rest => Disciplined rank held rest

/-- The locks that disciplined actions start with are those they give back. -/
theorem firstTouch_eq_releases_iff
    {rank : Lock → Nat} {held : Lock → Bool} {actions : List (Action Lock)}
    {lock : Lock}
    (disciplined : Disciplined rank held actions) :
    firstTouch lock actions = some .releases ↔ held lock = true := by
  induction actions generalizing held with
  | nil => simp [firstTouch, disciplined lock]
  | cons action rest inductionHypothesis =>
      cases action with
      | acquire other =>
          obtain ⟨above, later⟩ := disciplined
          rw [firstTouch]
          split
          · next same =>
              subst same
              refine iff_of_false (by simp) fun holds => ?_
              exact absurd (above other holds) (Nat.lt_irrefl _)
          · next different =>
              rw [inductionHypothesis later,
                Function.update_of_ne (Ne.symm different)]
      | release other =>
          obtain ⟨holds, later⟩ := disciplined
          rw [firstTouch]
          split
          · next same =>
              subst same
              exact iff_of_true rfl holds
          · next different =>
              rw [inductionHypothesis later,
                Function.update_of_ne (Ne.symm different)]
      | enter => exact inductionHypothesis disciplined
      | leave => exact inductionHypothesis disciplined
      | work => exact inductionHypothesis disciplined

/-- Actions that start with no lock touch a lock by taking it. -/
theorem firstTouch_of_disciplined
    {rank : Lock → Nat} {actions : List (Action Lock)} {lock : Lock}
    (disciplined : Disciplined rank (fun _ => false) actions) :
    firstTouch lock actions ≠ some .releases := fun first =>
  Bool.false_ne_true ((firstTouch_eq_releases_iff disciplined).mp first)

/-- Actions may be put in front of others that hold lower locks. -/
theorem Disciplined.append
    {rank : Lock → Nat} {mine held : Lock → Bool}
    {first second : List (Action Lock)}
    (earlier : Disciplined rank mine first)
    (later : Disciplined rank held second)
    (apart : ∀ lock, held lock = true → mine lock = false)
    (above : ∀ lock, held lock = true → ∀ other, Action.acquire other ∈ first →
      rank lock < rank other) :
    Disciplined rank (fun lock => held lock || mine lock) (first ++ second) := by
  induction first generalizing mine with
  | nil =>
      have same : (fun lock => held lock || mine lock) = held := by
        funext lock
        rw [earlier lock, Bool.or_false]
      rw [same]
      exact later
  | cons action rest inductionHypothesis =>
      have aboveRest : ∀ lock, held lock = true → ∀ other,
          Action.acquire other ∈ rest → rank lock < rank other :=
        fun lock holds other member =>
          above lock holds other (List.mem_cons_of_mem _ member)
      cases action with
      | acquire lock =>
          obtain ⟨ranked, following⟩ := earlier
          have lower : ∀ other, held other = true → rank other < rank lock :=
            fun other holds => above other holds lock List.mem_cons_self
          have set : Function.update (fun other => held other || mine other)
              lock true =
                fun other => held other || Function.update mine lock true other
              := by
            funext other
            by_cases same : other = lock
            · subst same
              simp
            · simp [same]
          refine ⟨fun other holds => ?_, ?_⟩
          · rcases (Bool.or_eq_true _ _).mp holds with below | own
            · exact lower other below
            · exact ranked other own
          · rw [set]
            refine inductionHypothesis following (fun other holds => ?_)
              aboveRest
            have different : other ≠ lock := by
              rintro rfl
              exact Nat.lt_irrefl _ (lower other holds)
            rw [Function.update_of_ne different]
            exact apart other holds
      | release lock =>
          obtain ⟨own, following⟩ := earlier
          have clear : held lock = false := by
            by_contra holds
            rw [Bool.not_eq_false] at holds
            rw [apart lock holds] at own
            cases own
          have set : Function.update (fun other => held other || mine other)
              lock false =
                fun other => held other || Function.update mine lock false other
              := by
            funext other
            by_cases same : other = lock
            · subst same
              simp [clear]
            · simp [same]
          refine ⟨by simp [own], ?_⟩
          rw [set]
          refine inductionHypothesis following (fun other holds => ?_) aboveRest
          by_cases same : other = lock
          · subst same
            exact Function.update_self _ _ _
          · rw [Function.update_of_ne same]
            exact apart other holds
      | enter => exact inductionHypothesis earlier apart aboveRest
      | leave => exact inductionHypothesis earlier apart aboveRest
      | work => exact inductionHypothesis earlier apart aboveRest

/-- The actions may be put in front of actions that keep to the discipline. -/
def Through (rank : Lock → Nat) (held : Lock → Bool)
    (actions : List (Action Lock)) : Prop :=
  ∀ rest, Disciplined rank held rest → Disciplined rank held (actions ++ rest)

theorem Through.append
    {rank : Lock → Nat} {held : Lock → Bool} {first second : List (Action Lock)}
    (earlier : Through rank held first)
    (later : Through rank held second) :
    Through rank held (first ++ second) := by
  intro rest disciplined
  rw [List.append_assoc]
  exact earlier _ (later rest disciplined)

theorem Through.flatMap
    {Item : Type*} {rank : Lock → Nat} {held : Lock → Bool}
    {actions : Item → List (Action Lock)}
    (items : List Item)
    (each : ∀ item ∈ items, Through rank held (actions item)) :
    Through rank held (items.flatMap actions) := by
  induction items with
  | nil => exact fun _ disciplined => disciplined
  | cons item items inductionHypothesis =>
      exact (each item List.mem_cons_self).append
        (inductionHypothesis fun other member =>
          each other (List.mem_cons_of_mem item member))

/-- Actions under a lock above those that are held. -/
theorem Through.lock
    {rank : Lock → Nat} {held : Lock → Bool} {actions : List (Action Lock)}
    {lock : Lock}
    (above : ∀ other, held other = true → rank other < rank lock)
    (inside : Through rank (Function.update held lock true) actions) :
    Through rank held (.acquire lock :: actions ++ [.release lock]) := by
  intro rest disciplined
  have clear : held lock = false := by
    by_contra holds
    rw [Bool.not_eq_false] at holds
    exact Nat.lt_irrefl _ (above lock holds)
  have back : Function.update (Function.update held lock true) lock false =
      held := by
    rw [Function.update_idem, ← clear, Function.update_eq_self]
  rw [List.cons_append, List.cons_append, List.append_assoc]
  refine ⟨above, inside _ ⟨Function.update_self _ _ _, ?_⟩⟩
  rw [back]
  exact disciplined

theorem Through.disciplined
    {rank : Lock → Nat} {actions : List (Action Lock)}
    (through : Through rank (fun _ => false) actions) :
    Disciplined rank (fun _ => false) actions := by
  have whole := through [] fun _ => rfl
  rwa [List.append_nil] at whole

/-! ## Nobody is stuck -/

/-- The parties keep to the discipline with what they hold; a lock is set while
it is held, and one party at most holds it. -/
structure Owned (rank : Lock → Nat) (s : System Party Lock)
    (held : Party → Lock → Bool) : Prop where
  disciplined : ∀ party, Disciplined rank (held party) (s.todo party)
  taken : ∀ lock, s.taken lock = true ↔ ∃ party, held party lock = true
  unique : ∀ party other lock, held party lock = true →
    held other lock = true → party = other

variable {rank : Lock → Nat} {s after final : System Party Lock}
  {held : Party → Lock → Bool} {party other : Party} {lock : Lock}
  {rest handler actions : List (Action Lock)} {result : (Lock → Bool) × Nat}

theorem Owned.holds_iff
    (owned : Owned rank s held)
    (party : Party) (lock : Lock) :
    s.Holds party lock ↔ held party lock = true :=
  firstTouch_eq_releases_iff (owned.disciplined party)

theorem owned_start
    {programs : Party → List (Action Lock)}
    (disciplined : ∀ party, Disciplined rank (fun _ => false) (programs party)) :
    Owned rank (start programs) fun _ _ => false where
  disciplined := disciplined
  taken := by simp [start]
  unique := by simp

/-- A party has something to do that does not have to wait. -/
def System.Goes (s : System Party Lock) (party : Party) : Prop :=
  ∃ action rest result, s.todo party = action :: rest ∧
    effect s.taken (s.depth party) action = some result

/-- A party that does not go has finished or waits for a lock. -/
theorem goes_or_waits
    (s : System Party Lock)
    {action : Action Lock}
    (program : s.todo party = action :: rest) :
    s.Goes party ∨ ∃ lock, action = .acquire lock ∧ s.taken lock = true := by
  cases done : effect s.taken (s.depth party) action with
  | some result => exact .inl ⟨action, rest, result, program, done⟩
  | none =>
      cases action with
      | acquire lock =>
          by_cases taken : s.taken lock = true
          · exact .inr ⟨lock, rfl, taken⟩
          · simp [effect, taken] at done
      | release lock => cases done
      | enter => cases done
      | leave => cases done
      | work => cases done

/-- Whoever holds a lock goes, or waits for a lock of higher rank. -/
theorem Owned.exists_goes_of_taken
    {bound : Nat}
    (owned : Owned rank s held)
    (bounded : ∀ lock, rank lock ≤ bound)
    (taken : s.taken lock = true) :
    ∃ party, s.Goes party := by
  induction room : bound - rank lock using Nat.strong_induction_on
    generalizing lock with
  | _ room inductionHypothesis =>
      obtain ⟨party, holds⟩ := (owned.taken lock).mp taken
      have disciplined := owned.disciplined party
      cases program : s.todo party with
      | nil =>
          rw [program] at disciplined
          rw [disciplined lock] at holds
          cases holds
      | cons action rest =>
          rcases goes_or_waits s program with goes | ⟨higher, rfl, also⟩
          · exact ⟨party, goes⟩
          · rw [program] at disciplined
            have lower := disciplined.1 lock holds
            have most := bounded higher
            exact inductionHypothesis _ (by omega) also rfl

/-- Some party can go on until all have finished. -/
theorem Owned.exists_goes
    {bound : Nat}
    (owned : Owned rank s held)
    (bounded : ∀ lock, rank lock ≤ bound)
    (unfinished : ¬ s.Finished) :
    ∃ party, s.Goes party := by
  obtain ⟨party, more⟩ := not_forall.mp unfinished
  obtain ⟨action, rest, program⟩ := List.exists_cons_of_ne_nil more
  rcases goes_or_waits s program with goes | ⟨lock, -, taken⟩
  · exact ⟨party, goes⟩
  · exact owned.exists_goes_of_taken bounded taken

/-! ## Events -/

variable [DecidableEq Party]

/-- A party has other actions to do. -/
def System.redirect (s : System Party Lock) (party : Party)
    (actions : List (Action Lock)) : System Party Lock :=
  { s with todo := Function.update s.todo party actions }

/-- A party goes on after some other actions. -/
def System.interrupt (s : System Party Lock) (party : Party)
    (handler : List (Action Lock)) : System Party Lock :=
  s.redirect party (handler ++ s.todo party)

omit [DecidableEq Lock] in
theorem todo_redirect_self :
    (s.redirect party actions).todo party = actions :=
  Function.update_self _ _ _

omit [DecidableEq Lock] in
theorem todo_redirect_of_ne (different : other ≠ party) :
    (s.redirect party actions).todo other = s.todo other :=
  Function.update_of_ne different _ _

/-- One event. -/
def happen (s : System Party Lock) :
    Event Party Lock → Option (System Party Lock)
  | .step party => step s party
  | .interrupt party handler => some (s.interrupt party handler)
  | .switch party handler => some (s.redirect party handler)

/-- A party has a turn, in which it does nothing when it has finished. -/
def turn (s : System Party Lock) (party : Party) : System Party Lock :=
  (step s party).getD s

/-- A party goes on, with other locks only as far as nobody else holds them. -/
theorem Owned.advance
    {mine : Lock → Bool}
    (owned : Owned rank s held)
    (disciplined : Disciplined rank mine rest)
    (locks : ∀ lock,
      (result.1 lock = s.taken lock ∧ mine lock = held party lock) ∨
        (result.1 lock = mine lock ∧
          ∀ other, other ≠ party → held other lock = false)) :
    Owned rank (s.advance party rest result)
      (Function.update held party mine) := by
  have same_of_ne : ∀ other, other ≠ party →
      Function.update held party mine other = held other := fun other different =>
    Function.update_of_ne different _ _
  have own : Function.update held party mine party = mine :=
    Function.update_self _ _ _
  refine ⟨fun other => ?_, fun lock => ?_, fun first second lock => ?_⟩
  · by_cases same : other = party
    · rw [same, own, todo_advance_self]
      exact disciplined
    · rw [same_of_ne other same, todo_advance_of_ne same]
      exact owned.disciplined other
  · rw [taken_advance]
    rcases locks lock with ⟨kept, equal⟩ | ⟨set, free⟩
    · rw [kept, owned.taken lock]
      refine exists_congr fun other => ?_
      by_cases same : other = party
      · rw [same, own, equal]
      · rw [same_of_ne other same]
    · rw [set]
      refine ⟨fun holds => ⟨party, by rwa [own]⟩, ?_⟩
      rintro ⟨other, holds⟩
      by_cases same : other = party
      · rwa [same, own] at holds
      · rw [same_of_ne other same, free other same] at holds
        cases holds
  · rcases locks lock with ⟨-, equal⟩ | ⟨-, free⟩
    · have back : ∀ other, Function.update held party mine other lock =
          held other lock := by
        intro other
        by_cases same : other = party
        · rw [same, own, equal]
        · rw [same_of_ne other same]
      rw [back, back]
      exact owned.unique first second lock
    · have only : ∀ other, Function.update held party mine other lock = true →
          other = party := by
        intro other holds
        by_contra different
        rw [same_of_ne other different, free other different] at holds
        cases holds
      exact fun holds also => (only first holds).trans (only second also).symm

/-- A step keeps the discipline. -/
theorem Owned.step
    (owned : Owned rank s held)
    (stepped : step s party = some after) :
    ∃ held, Owned rank after held := by
  have disciplined := owned.disciplined party
  rcases step_cases stepped with rfl |
    ⟨action, rest, result, program, done, rfl⟩
  · exact ⟨held, owned⟩
  rw [program] at disciplined
  cases action with
  | acquire lock =>
      simp only [effect, Option.ite_none_left_eq_some,
        Option.some.injEq] at done
      obtain ⟨clear, rfl⟩ := done
      refine ⟨_, owned.advance disciplined.2 fun other => ?_⟩
      by_cases same : other = lock
      · subst same
        refine .inr ⟨by simp, fun party _ => ?_⟩
        by_contra holds
        rw [Bool.not_eq_false] at holds
        exact clear ((owned.taken other).mpr ⟨party, holds⟩)
      · exact .inl (by simp [same])
  | release lock =>
      obtain rfl := Option.some.inj done
      refine ⟨_, owned.advance disciplined.2 fun other => ?_⟩
      by_cases same : other = lock
      · subst same
        refine .inr ⟨by simp, fun another different => ?_⟩
        by_contra holds
        rw [Bool.not_eq_false] at holds
        exact different (owned.unique _ _ _ holds disciplined.1)
      · exact .inl (by simp [same])
  | enter =>
      obtain rfl := Option.some.inj done
      exact ⟨_, owned.advance disciplined fun _ => .inl ⟨rfl, rfl⟩⟩
  | leave =>
      obtain rfl := Option.some.inj done
      exact ⟨_, owned.advance disciplined fun _ => .inl ⟨rfl, rfl⟩⟩
  | work =>
      obtain rfl := Option.some.inj done
      exact ⟨_, owned.advance disciplined fun _ => .inl ⟨rfl, rfl⟩⟩

/-- A party may be given any actions that suit what it holds. -/
theorem Owned.redirect
    (owned : Owned rank s held)
    (disciplined : Disciplined rank (held party) actions) :
    Owned rank (s.redirect party actions) held where
  disciplined := by
    intro other
    by_cases same : other = party
    · subst same
      rwa [todo_redirect_self]
    · rw [todo_redirect_of_ne same]
      exact owned.disciplined other
  taken := owned.taken
  unique := owned.unique

/-- An interrupt that takes higher locks keeps the discipline. -/
theorem Owned.interrupt
    (owned : Owned rank s held)
    (disciplined : Disciplined rank (fun _ => false) handler)
    (above : ∀ lock, s.Holds party lock → ∀ other,
      Action.acquire other ∈ handler → rank lock < rank other) :
    Owned rank (s.interrupt party handler) held := by
  have whole := disciplined.append (owned.disciplined party)
    (fun _ _ => rfl)
    (fun lock holds => above lock ((owned.holds_iff party lock).mpr holds))
  simp only [Bool.or_false] at whole
  exact owned.redirect whole

/-- A party that holds nothing may drop what it has to do. -/
theorem Owned.switch
    (owned : Owned rank s held)
    (disciplined : Disciplined rank (fun _ => false) handler)
    (free : ∀ lock, ¬ s.Holds party lock) :
    Owned rank (s.redirect party handler) held := by
  have none : held party = fun _ => false := by
    funext lock
    by_contra holds
    rw [Bool.not_eq_false] at holds
    exact free lock ((owned.holds_iff party lock).mpr holds)
  refine owned.redirect ?_
  rwa [none]

omit [DecidableEq Party] in
/-- No lock is set when all have finished. -/
theorem Owned.free_of_finished
    (owned : Owned rank s held)
    (finished : s.Finished)
    (lock : Lock) :
    s.taken lock = false := by
  by_contra taken
  rw [Bool.not_eq_false] at taken
  obtain ⟨party, holds⟩ := (owned.taken lock).mp taken
  have disciplined := owned.disciplined party
  rw [finished party] at disciplined
  rw [disciplined lock] at holds
  cases holds

/-! ## Fair schedules end -/

section Fair

variable [Fintype Party]

/-- The actions left. -/
def remaining (s : System Party Lock) : Nat :=
  ∑ party, (s.todo party).length

omit [DecidableEq Party] [DecidableEq Lock] in
theorem finished_of_remaining
    (none : remaining s = 0) :
    s.Finished := fun party =>
  List.eq_nil_of_length_eq_zero
    (Finset.sum_eq_zero_iff.mp none party (Finset.mem_univ party))

omit [DecidableEq Lock] in
theorem remaining_advance
    {action : Action Lock}
    (program : s.todo party = action :: rest) :
    remaining (s.advance party rest result) < remaining s := by
  refine Finset.sum_lt_sum (fun other _ => ?_) ⟨party, Finset.mem_univ _, ?_⟩
  · by_cases same : other = party
    · rw [same, todo_advance_self, program, List.length_cons]
      exact Nat.le_succ _
    · rw [todo_advance_of_ne same]
  · rw [todo_advance_self, program, List.length_cons]
    exact Nat.lt_succ_self _

/-- A turn changes nothing, or there is less to do after it. -/
theorem turn_cases (s : System Party Lock) (party : Party) :
    turn s party = s ∨ remaining (turn s party) < remaining s := by
  rw [turn]
  cases stepped : step s party with
  | none => exact .inl rfl
  | some after =>
      rcases step_cases stepped with rfl | ⟨action, rest, result, program, -, rfl⟩
      · exact .inl rfl
      · exact .inr (remaining_advance program)

/-- A party that goes has less to do after its turn. -/
theorem remaining_turn_of_goes
    (goes : s.Goes party) :
    remaining (turn s party) < remaining s := by
  obtain ⟨action, rest, result, program, done⟩ := goes
  have stepped : step s party = some (s.advance party rest result) := by
    rw [step, program]
    simp only [done]
  rw [turn, stepped]
  exact remaining_advance program

/-- Everybody has a turn, in some order. -/
def turns (s : System Party Lock) (round : List Party) : System Party Lock :=
  round.foldl turn s

theorem remaining_turns (s : System Party Lock) (round : List Party) :
    remaining (turns s round) ≤ remaining s := by
  induction round generalizing s with
  | nil => exact Nat.le_refl _
  | cons party round inductionHypothesis =>
      have later := inductionHypothesis (turn s party)
      rcases turn_cases s party with same | less
      · rw [same] at later
        rw [turns, List.foldl_cons, same]
        exact later
      · exact Nat.le_of_lt (Nat.lt_of_le_of_lt later less)

/-- There is less to do after a party that goes has had its turn, whoever comes
before it. -/
theorem remaining_turns_of_goes
    {round : List Party}
    (goes : s.Goes party)
    (among : party ∈ round) :
    remaining (turns s round) < remaining s := by
  induction round with
  | nil => exact absurd among List.not_mem_nil
  | cons first round inductionHypothesis =>
      rcases turn_cases s first with same | less
      · have different : party ≠ first := by
          rintro rfl
          have goesOn := remaining_turn_of_goes goes
          rw [same] at goesOn
          exact Nat.lt_irrefl _ goesOn
        rw [turns, List.foldl_cons, same]
        exact inductionHypothesis
          ((List.mem_cons.mp among).resolve_left different)
      · exact Nat.lt_of_le_of_lt (remaining_turns (turn s first) round) less

omit [Fintype Party] in
theorem Owned.turns
    (owned : Owned rank s held)
    (round : List Party) :
    ∃ held, Owned rank (turns s round) held := by
  induction round generalizing s held with
  | nil => exact ⟨held, owned⟩
  | cons party round inductionHypothesis =>
      have next : ∃ held, Owned rank (turn s party) held := by
        rw [turn]
        cases stepped : SpinLock.step s party with
        | none => exact ⟨held, owned⟩
        | some after => exact owned.step stepped
      obtain ⟨_, next⟩ := next
      exact inductionHypothesis next

/-- Where somebody goes as long as not all have finished, as many rounds as
there are actions left are enough.  Then all locks are free. -/
theorem Owned.finished_of_rounds
    {bound : Nat} {rounds : List (List Party)}
    (owned : Owned rank s held)
    (bounded : ∀ lock, rank lock ≤ bound)
    (fair : ∀ round ∈ rounds, ∀ party, party ∈ round)
    (enough : remaining s ≤ rounds.length) :
    (rounds.foldl SpinLock.turns s).Finished ∧
      ∀ lock, (rounds.foldl SpinLock.turns s).taken lock = false := by
  induction rounds generalizing s held with
  | nil =>
      have finished : s.Finished :=
        finished_of_remaining (Nat.le_zero.mp enough)
      exact ⟨finished, owned.free_of_finished finished⟩
  | cons round rounds inductionHypothesis =>
      obtain ⟨heldThen, next⟩ := owned.turns round
      refine inductionHypothesis next
        (fun later member => fair later (List.mem_cons_of_mem _ member)) ?_
      rw [List.length_cons] at enough
      by_cases finished : s.Finished
      · have none : remaining s = 0 :=
          Finset.sum_eq_zero fun party _ => by rw [finished party]; rfl
        have least := remaining_turns s round
        omega
      · obtain ⟨party, goes⟩ := owned.exists_goes bounded finished
        have less := remaining_turns_of_goes goes
          (fair round List.mem_cons_self party)
        omega

end Fair

/-! ## Somebody is stuck -/

/-- A lock is set, nobody will give it back, and somebody waits for it. -/
structure Doomed (s : System Party Lock) (lock : Lock) : Prop where
  taken : s.taken lock = true
  lost : ∀ party, ¬ s.Holds party lock
  waited : ∃ party, firstTouch lock (s.todo party) = some .acquires

omit [DecidableEq Party] in
theorem Doomed.not_finished (doomed : Doomed s lock) : ¬ s.Finished := by
  obtain ⟨party, waits⟩ := doomed.waited
  intro finished
  rw [finished party] at waits
  cases waits

/-- A party goes on without the lock. -/
theorem Doomed.advance
    (doomed : Doomed s lock)
    (taken : result.1 lock = true)
    (same : firstTouch lock rest = firstTouch lock (s.todo party)) :
    Doomed (s.advance party rest result) lock := by
  have touches : ∀ other,
      firstTouch lock ((s.advance party rest result).todo other) =
        firstTouch lock (s.todo other) := by
    intro other
    by_cases here : other = party
    · rw [here, todo_advance_self, same]
    · rw [todo_advance_of_ne here]
  refine ⟨taken, fun other holds => doomed.lost other ?_, ?_⟩
  · exact (touches other).symm.trans holds
  · obtain ⟨other, waits⟩ := doomed.waited
    exact ⟨other, (touches other).trans waits⟩

theorem Doomed.step
    (doomed : Doomed s lock)
    (stepped : step s party = some after) :
    Doomed after lock := by
  rcases step_cases stepped with rfl |
    ⟨action, rest, result, program, done, rfl⟩
  · exact doomed
  have lost := doomed.lost party
  rw [System.Holds, program] at lost
  cases action with
  | acquire other =>
      simp only [effect, Option.ite_none_left_eq_some,
        Option.some.injEq] at done
      obtain ⟨clear, rfl⟩ := done
      have different : lock ≠ other := by
        rintro rfl
        exact clear doomed.taken
      refine doomed.advance ?_ ?_
      · exact (Function.update_of_ne different _ _).trans doomed.taken
      · rw [program, firstTouch, if_neg (Ne.symm different)]
  | release other =>
      obtain rfl := Option.some.inj done
      have different : lock ≠ other := by
        rintro rfl
        exact lost (if_pos rfl)
      refine doomed.advance ?_ ?_
      · exact (Function.update_of_ne different _ _).trans doomed.taken
      · rw [program, firstTouch, if_neg (Ne.symm different)]
  | enter =>
      obtain rfl := Option.some.inj done
      exact doomed.advance doomed.taken (by rw [program, firstTouch])
  | leave =>
      obtain rfl := Option.some.inj done
      exact doomed.advance doomed.taken (by rw [program, firstTouch])
  | work =>
      obtain rfl := Option.some.inj done
      exact doomed.advance doomed.taken (by rw [program, firstTouch])

/-- Other actions do not help, unless they give the lock back. -/
theorem Doomed.redirect
    (doomed : Doomed s lock)
    (keeping : firstTouch lock actions ≠ some .releases)
    (waiting : firstTouch lock (s.todo party) = some .acquires →
      firstTouch lock actions = some .acquires) :
    Doomed (s.redirect party actions) lock := by
  refine ⟨doomed.taken, fun other holds => ?_, ?_⟩
  · by_cases same : other = party
    · subst same
      rw [System.Holds, todo_redirect_self] at holds
      exact keeping holds
    · rw [System.Holds, todo_redirect_of_ne same] at holds
      exact doomed.lost other holds
  · obtain ⟨other, waits⟩ := doomed.waited
    refine ⟨other, ?_⟩
    by_cases same : other = party
    · subst same
      rw [todo_redirect_self]
      exact waiting waits
    · rwa [todo_redirect_of_ne same]

/-- Nothing that an interrupt does can help. -/
theorem Doomed.interrupt
    (doomed : Doomed s lock)
    (taking : firstTouch lock handler ≠ some .releases) :
    Doomed (s.interrupt party handler) lock := by
  refine doomed.redirect ?_ fun waits => ?_
  · rw [firstTouch_append]
    intro first
    rcases Option.or_eq_some_iff.mp first with here | ⟨-, later⟩
    · exact taking here
    · exact doomed.lost party later
  · rw [firstTouch_append, waits]
    cases first : firstTouch lock handler with
    | none => rfl
    | some touch =>
        cases touch with
        | acquires => rfl
        | releases => exact absurd first taking

/-- A party that is to take a lock that it holds waits for itself. -/
theorem Owned.doomed_redirect
    (owned : Owned rank s held)
    (holds : s.Holds party lock)
    (first : firstTouch lock actions = some .acquires) :
    Doomed (s.redirect party actions) lock := by
  have mine := (owned.holds_iff party lock).mp holds
  refine ⟨(owned.taken lock).mpr ⟨party, mine⟩, fun other also => ?_, party, ?_⟩
  · by_cases same : other = party
    · subst same
      rw [System.Holds, todo_redirect_self, first] at also
      cases also
    · rw [System.Holds, todo_redirect_of_ne same] at also
      exact same (owned.unique other party lock
        ((owned.holds_iff other lock).mp also) mine)
  · rwa [todo_redirect_self]

omit [DecidableEq Party] in
theorem firstTouch_isSome
    (member : Action.acquire lock ∈ handler) :
    (firstTouch lock handler).isSome := by
  induction handler with
  | nil => exact absurd member List.not_mem_nil
  | cons action rest inductionHypothesis =>
      rcases List.mem_cons.mp member with rfl | later
      · rw [firstTouch, if_pos rfl]
        rfl
      · cases action with
        | acquire other =>
            rw [firstTouch]
            split
            · rfl
            · exact inductionHypothesis later
        | release other =>
            rw [firstTouch]
            split
            · rfl
            · exact inductionHypothesis later
        | enter => exact inductionHypothesis later
        | leave => exact inductionHypothesis later
        | work => exact inductionHypothesis later

omit [DecidableEq Party] in
/-- Disciplined actions that take a lock anywhere touch it first by taking
it. -/
theorem firstTouch_of_acquire_mem
    (disciplined : Disciplined rank (fun _ => false) handler)
    (member : Action.acquire lock ∈ handler) :
    firstTouch lock handler = some .acquires := by
  obtain ⟨touch, first⟩ :=
    Option.isSome_iff_exists.mp (firstTouch_isSome member)
  cases touch with
  | acquires => exact first
  | releases => exact absurd first (firstTouch_of_disciplined disciplined)

/-! ## Runs -/

/-- An interrupt takes no lock that its party holds. -/
def System.Safe (s : System Party Lock) : Event Party Lock → Prop
  | .step _ => True
  | .interrupt party handler =>
      ∀ lock, Action.acquire lock ∈ handler → ¬ s.Holds party lock
  | .switch party handler =>
      ∀ lock, Action.acquire lock ∈ handler → ¬ s.Holds party lock

/-- The actions of an interrupt keep to the discipline, and the locks that they
do not take are below those that they take. -/
structure Handles (rank : Lock → Nat) (handler : List (Action Lock)) : Prop where
  disciplined : Disciplined rank (fun _ => false) handler
  above : ∀ lock other, Action.acquire lock ∉ handler →
    Action.acquire other ∈ handler → rank lock < rank other

/-- Every interrupt is one of these, and one that does not go back takes every
lock. -/
def Event.Handled (rank : Lock → Nat) : Event Party Lock → Prop
  | .step _ => True
  | .interrupt _ handler => Handles rank handler
  | .switch _ handler =>
      Disciplined rank (fun _ => false) handler ∧
        ∀ lock, Action.acquire lock ∈ handler

/-- A safe event keeps the discipline. -/
theorem Owned.safe
    {event : Event Party Lock}
    (owned : Owned rank s held)
    (handled : event.Handled rank)
    (safe : s.Safe event)
    (happened : happen s event = some after) :
    ∃ held, Owned rank after held := by
  cases event with
  | step party => exact owned.step happened
  | interrupt party handler =>
      obtain rfl := Option.some.inj happened
      exact ⟨held, owned.interrupt handled.disciplined
        fun lock holds other member =>
          handled.above lock other
            (fun taken => safe lock taken holds) member⟩
  | switch party handler =>
      obtain rfl := Option.some.inj happened
      obtain ⟨disciplined, all⟩ := handled
      exact ⟨held, owned.switch disciplined fun lock => safe lock (all lock)⟩

/-- An interrupt that is not safe cannot end. -/
theorem Owned.doomed
    {event : Event Party Lock}
    (owned : Owned rank s held)
    (handled : event.Handled rank)
    (clash : ¬ s.Safe event)
    (happened : happen s event = some after) :
    ∃ lock, Doomed after lock := by
  cases event with
  | step party => exact absurd trivial clash
  | interrupt party handler =>
      obtain rfl := Option.some.inj happened
      simp only [System.Safe, not_forall, not_not] at clash
      obtain ⟨lock, member, holds⟩ := clash
      refine ⟨lock, owned.doomed_redirect holds ?_⟩
      rw [firstTouch_append,
        firstTouch_of_acquire_mem handled.disciplined member]
      rfl
  | switch party handler =>
      obtain rfl := Option.some.inj happened
      simp only [System.Safe, not_forall, not_not] at clash
      obtain ⟨lock, member, holds⟩ := clash
      exact ⟨lock, owned.doomed_redirect holds
        (firstTouch_of_acquire_mem handled.1 member)⟩

theorem Doomed.run
    {events : List (Event Party Lock)}
    (doomed : Doomed s lock)
    (handled : ∀ event ∈ events, event.Handled rank)
    (ran : Runs.run happen s events = some final) :
    Doomed final lock := by
  induction events generalizing s with
  | nil =>
      obtain rfl := Option.some.inj ran
      exact doomed
  | cons event events inductionHypothesis =>
      obtain ⟨next, happened, later⟩ := Runs.run_cons.mp ran
      refine inductionHypothesis ?_
        (fun other member => handled other (List.mem_cons_of_mem _ member))
        later
      have here := handled event List.mem_cons_self
      cases event with
      | step party => exact doomed.step happened
      | interrupt party handler =>
          obtain rfl := Option.some.inj happened
          exact doomed.interrupt (firstTouch_of_disciplined here.disciplined)
      | switch party handler =>
          obtain rfl := Option.some.inj happened
          exact doomed.redirect (firstTouch_of_disciplined here.1)
            fun _ => firstTouch_of_acquire_mem here.1 (here.2 lock)

/-- A run whose interrupts are safe keeps the discipline, and any other run ends
in a system that cannot finish. -/
theorem Owned.run
    {events : List (Event Party Lock)}
    (owned : Owned rank s held)
    (handled : ∀ event ∈ events, event.Handled rank)
    (ran : Runs.run happen s events = some final) :
    (Runs.Along happen System.Safe s events → ∃ held, Owned rank final held) ∧
      (¬ Runs.Along happen System.Safe s events →
        ∃ lock, Doomed final lock) := by
  induction events generalizing s held with
  | nil =>
      obtain rfl := Option.some.inj ran
      exact ⟨fun _ => ⟨held, owned⟩, fun never => absurd trivial never⟩
  | cons event events inductionHypothesis =>
      obtain ⟨next, happened, later⟩ := Runs.run_cons.mp ran
      have here := handled event List.mem_cons_self
      have others : ∀ other ∈ events, other.Handled rank := fun other member =>
        handled other (List.mem_cons_of_mem _ member)
      by_cases safe : s.Safe event
      · obtain ⟨_, nextOwned⟩ := owned.safe here safe happened
        obtain ⟨onward, stuck⟩ := inductionHypothesis nextOwned others later
        refine ⟨fun along => onward (along.2 next happened),
          fun never => stuck fun along => never ⟨safe, ?_⟩⟩
        intro other also
        obtain rfl := Option.some.inj (happened.symm.trans also)
        exact along
      · refine ⟨fun along => absurd along.1 safe, fun _ => ?_⟩
        obtain ⟨lock, doomed⟩ := owned.doomed here safe happened
        exact ⟨lock, doomed.run others later⟩

end SpinLock
