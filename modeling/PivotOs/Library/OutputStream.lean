import PivotOs.Library.Runs

/-!
# Buffered output

Items are put into a buffer that holds a number of them, and from time to time
the buffer is emptied onto a device.  What was written is what the device has
received followed by what is still in the buffer.
-/

universe u

namespace OutputStream

/-- What can be done with the stream. -/
inductive Op (α : Type u)
  | put (item : α)
  | flush
  deriving DecidableEq

/-- What the device has received, and what is still in the buffer. -/
structure State (α : Type u) where
  /-- The items received. -/
  printed : List α
  /-- The items in the buffer. -/
  pending : List α

variable {α : Type u} {capacity count : Nat} {state final : State α}
  {ops : List (Op α)}

/-- One operation; a full buffer refuses an item. -/
def step (capacity : Nat) (state : State α) : Op α → Option (State α)
  | .put item =>
      if state.pending.length < capacity then
        some { state with pending := state.pending ++ [item] }
      else none
  | .flush => some ⟨state.printed ++ state.pending, []⟩

/-- The items that are put. -/
def written : List (Op α) → List α
  | [] => []
  | .put item :: ops => item :: written ops
  | .flush :: ops => written ops

/-- The items fit into the buffer, which holds a number of them already. -/
def Fits (capacity : Nat) : (count : Nat) → List (Op α) → Prop
  | _, [] => True
  | count, .put _ :: ops => count < capacity ∧ Fits capacity (count + 1) ops
  | _, .flush :: ops => Fits capacity 0 ops

instance decidableFits (capacity : Nat) :
    (count : Nat) → (ops : List (Op α)) → Decidable (Fits capacity count ops)
  | _, [] => isTrue trivial
  | count, .put _ :: ops =>
      have := decidableFits capacity (count + 1) ops
      inferInstanceAs (Decidable (_ ∧ _))
  | _, .flush :: ops => decidableFits capacity 0 ops

@[simp] theorem written_append (first second : List (Op α)) :
    written (first ++ second) = written first ++ written second := by
  induction first with
  | nil => rfl
  | cons op first inductionHypothesis =>
      cases op with
      | put item => simp [written, inductionHypothesis]
      | flush => simp [written, inductionHypothesis]

@[simp] theorem written_map_put (items : List α) :
    written (items.map Op.put) = items := by
  induction items with
  | nil => rfl
  | cons item items inductionHypothesis => simp [written, inductionHypothesis]

theorem written_flatMap
    {β : Type*}
    (items : List β) (effect : β → List (Op α)) :
    written (items.flatMap effect) =
      items.flatMap fun item => written (effect item) := by
  induction items with
  | nil => rfl
  | cons item items inductionHypothesis =>
      rw [List.flatMap_cons, List.flatMap_cons, written_append,
        inductionHypothesis]

/-- Nothing is lost, repeated or moved. -/
theorem run_written
    (ran : Runs.run (step capacity) state ops = some final) :
    final.printed ++ final.pending =
      state.printed ++ state.pending ++ written ops := by
  induction ops generalizing state with
  | nil =>
      obtain rfl := Option.some.inj ran
      simp [written]
  | cons op ops inductionHypothesis =>
      obtain ⟨next, stepped, rest⟩ := Runs.run_cons.mp ran
      rw [inductionHypothesis rest]
      cases op with
      | put item =>
          simp only [step, Option.ite_none_right_eq_some,
            Option.some.injEq] at stepped
          obtain ⟨-, rfl⟩ := stepped
          simp [written]
      | flush =>
          obtain rfl := Option.some.inj stepped
          simp [written]

/-- What the device has received before does not matter. -/
theorem run_received (printed pending : List α) :
    Runs.run (step capacity) ⟨printed, pending⟩ ops =
      (Runs.run (step capacity) ⟨[], pending⟩ ops).map fun final =>
        ⟨printed ++ final.printed, final.pending⟩ := by
  have general : ∀ earlier : List α,
      Runs.run (step capacity) ⟨printed ++ earlier, pending⟩ ops =
        (Runs.run (step capacity) ⟨earlier, pending⟩ ops).map fun final =>
          ⟨printed ++ final.printed, final.pending⟩ := by
    induction ops generalizing pending with
    | nil => exact fun _ => rfl
    | cons op ops inductionHypothesis =>
        intro earlier
        rw [Runs.run, Runs.run]
        cases op with
        | put item =>
            simp only [step]
            split
            · exact inductionHypothesis _ earlier
            · rfl
        | flush =>
            simp only [step, List.append_assoc]
            exact inductionHypothesis [] (earlier ++ pending)
  have here := general []
  rwa [List.append_nil] at here

/-- The operations are carried out exactly when the items fit. -/
theorem run_isSome_iff :
    (Runs.run (step capacity) state ops).isSome ↔
      Fits capacity state.pending.length ops := by
  induction ops generalizing state with
  | nil => simp [Fits]
  | cons op ops inductionHypothesis =>
      rw [Runs.run]
      cases op with
      | put item =>
          rw [step, Fits]
          split
          · next room =>
              rw [Option.bind_some, inductionHypothesis]
              simp [room]
          · next full => simp [full]
      | flush =>
          rw [step, Option.bind_some, inductionHypothesis]
          rfl

/-- Between two flushes there are at most so many items. -/
def ShortStretches (capacity : Nat) (ops : List (Op α)) : Prop :=
  ∀ items : List α, items.map Op.put <:+: ops → items.length ≤ capacity

/-- A stretch at the front begins with the first operation. -/
theorem map_put_prefix_cons
    {items : List α} {op : Op α}
    (stretch : items.map Op.put <+: op :: ops) :
    items = [] ∨ ∃ item others, items = item :: others ∧ op = .put item ∧
      others.map Op.put <+: ops := by
  cases items with
  | nil => exact Or.inl rfl
  | cons item others =>
      obtain ⟨first, rest⟩ := List.cons_prefix_cons.mp stretch
      exact Or.inr ⟨item, others, rfl, first.symm, rest⟩

/-- The items fit when those in front of the first flush do, and there are few
enough between any two. -/
theorem fits_iff_stretches :
    Fits capacity count ops ↔
      (∀ items : List α, items.map Op.put <+: ops → items ≠ [] →
        count + items.length ≤ capacity) ∧ ShortStretches capacity ops := by
  induction ops generalizing count with
  | nil => simp [Fits, ShortStretches]
  | cons op ops inductionHypothesis =>
      cases op with
      | put item =>
          rw [Fits, inductionHypothesis]
          constructor
          · rintro ⟨room, front, stretches⟩
            have here : ∀ items : List α, items.map Op.put <+: .put item :: ops →
                items ≠ [] → count + items.length ≤ capacity := by
              intro items stretch nonempty
              obtain ⟨first, others, rfl, -, rest⟩ :=
                (map_put_prefix_cons stretch).resolve_left nonempty
              have short := front others rest
              rw [List.length_cons]
              by_cases last : others = []
              · simpa [last] using Nat.succ_le_of_lt room
              · have := short last
                omega
            refine ⟨here, fun items stretch => ?_⟩
            rcases List.infix_cons_iff.mp stretch with front | later
            · by_cases none : items = []
              · simp [none]
              · exact Nat.le_trans (Nat.le_add_left _ _) (here items front none)
            · exact stretches items later
          · rintro ⟨front, stretches⟩
            refine ⟨?_, fun items stretch _ => ?_, fun items stretch => ?_⟩
            · exact front [item] (by simp) (by simp)
            · have := front (item :: items)
                (List.cons_prefix_cons.mpr ⟨rfl, stretch⟩) (by simp)
              rw [List.length_cons] at this
              omega
            · exact stretches items (List.infix_cons stretch)
      | flush =>
          rw [Fits, inductionHypothesis]
          have none : ∀ items : List α, items.map Op.put <+: .flush :: ops →
              items = [] := by
            intro items stretch
            refine (map_put_prefix_cons stretch).resolve_right ?_
            rintro ⟨item, others, -, different, -⟩
            cases different
          constructor
          · rintro ⟨front, stretches⟩
            refine ⟨fun items stretch nonempty => ?_, fun items stretch => ?_⟩
            · exact absurd (none items stretch) nonempty
            · rcases List.infix_cons_iff.mp stretch with front | later
              · simp [none items front]
              · exact stretches items later
          · rintro ⟨-, stretches⟩
            have later : ShortStretches capacity ops := fun items stretch =>
              stretches items (List.infix_cons stretch)
            refine ⟨fun items stretch _ => ?_, later⟩
            rw [Nat.zero_add]
            exact later items stretch.isInfix

/-- Into an empty buffer the items fit when there are few enough between any
two flushes. -/
theorem fits_iff_shortStretches :
    Fits capacity 0 ops ↔ ShortStretches capacity ops := by
  rw [fits_iff_stretches]
  refine and_iff_right_of_imp fun stretches items stretch _ => ?_
  rw [Nat.zero_add]
  exact stretches items stretch.isInfix

end OutputStream
