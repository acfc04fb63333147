import PivotOs.Keyboard.Modifiers

/-!
# What is typed

A stream of events types the characters of the keys that are pressed, from the
shifted table while a shift key is held.  For streams without a press of a key
that has no entry, the driver prints exactly these characters, whatever lies
behind the tables.
-/

namespace PivotOs
namespace Keyboard

/-- A shift key is held. -/
def Shifted (events : List KeyEvent) : Prop :=
  Held .leftShift events ∨ Held .rightShift events

instance (events : List KeyEvent) : Decidable (Shifted events) :=
  inferInstanceAs (Decidable (_ = _ ∨ _ = _))

/-- The character that an event types behind these events: a key that is
pressed types its entry in the table, unless that is 0. -/
def KeyEvent.character (before : List KeyEvent) (event : KeyEvent) :
    Option Byte :=
  let table := if Shifted (before ++ [event]) then shiftKeymap else keymap
  if event.pressed then
    table[event.handedOn.toNat]?.filter fun key => key ≠ 0#8
  else none

/-- The characters that events type behind others. -/
def typed : (before events : List KeyEvent) → List Byte
  | _, [] => []
  | before, event :: events =>
      (event.character before).toList ++ typed (before ++ [event]) events

theorem typed_concat (before events : List KeyEvent) (event : KeyEvent) :
    typed before (events ++ [event]) =
      typed before events ++ (event.character (before ++ events)).toList := by
  induction events generalizing before with
  | nil => simp [typed]
  | cons first events inductionHypothesis =>
      rw [List.cons_append, typed, inductionHypothesis, typed, List.append_assoc,
        List.append_assoc, List.singleton_append]

namespace Driver

variable {s next : Driver} {behind : Lookup → Byte}
  {before : List KeyEvent} {event : KeyEvent}

/-- The table that `get_char` uses. -/
theorem Knows.table_lookup
    (knows : s.Knows before)
    (scancode : Byte) :
    (s.lookup scancode).table =
      if Shifted before then shiftKeymap else keymap := by
  have bits : ∀ modifiers : Byte,
      modifiers &&& (KeyModifier.leftShift.mask |||
          KeyModifier.rightShift.mask) ≠ 0#8 ↔
        modifiers.getLsbD KeyModifier.leftShift.bit = true ∨
          modifiers.getLsbD KeyModifier.rightShift.bit = true := by
    decide
  have shifted := bits s.currentModifiers
  rw [knows .leftShift, knows .rightShift] at shifted
  rw [Lookup.table, lookup]
  simp only [decide_eq_true_eq]
  exact if_congr shifted rfl rfl

/-- An event prints the character that it types. -/
theorem Handled.printed_eq
    (handled : Handled behind s next event)
    (knows : s.Knows before)
    (mapped : event.Mapped) :
    next.printed = (event.character before).toList ++ s.printed := by
  have table := (handled.knows knows).table_lookup event.handedOn
  rw [KeyEvent.character]
  cases press : event.pressed with
  | false => exact (handled.released press).2
  | true =>
      have entry : event.handedOn.toNat <
          (next.lookup event.handedOn).table.length := by
        rw [table_length]
        exact mapped press
      have found : (next.lookup event.handedOn).table[event.handedOn.toNat]? =
          some (next.getChar behind event.handedOn) := by
        have item := List.getElem?_eq_getElem entry
        have read : (next.lookup event.handedOn).table[
            (next.lookup event.handedOn).index]? = _ := item
        rw [item, getChar, read, Option.getD_some]
      rw [(handled.pressed press).2, ← table]
      simp only [found, if_true, Option.filter_some]
      by_cases blank : next.getChar behind event.handedOn = 0#8
      · simp [blank]
      · simp [blank]

/-- A stream without the press of a key that has no entry prints what its
events type. -/
theorem run_printed
    (behind : Lookup → Byte)
    (bytes : List Byte)
    (mapped : ∀ byte ∈ bytes, ¬ Unmapped byte) :
    (run behind bytes).printed.reverse = typed [] (decode false bytes) := by
  suffices invariant : (run behind bytes).Knows (decode false bytes) ∧
      ((∀ event ∈ decode false bytes, event.Mapped) →
        (run behind bytes).printed.reverse = typed [] (decode false bytes)) from
    invariant.2 ((decode_mapped_iff false bytes).mpr mapped)
  refine run_invariant (fun s events =>
    s.Knows events ∧ ((∀ event ∈ events, event.Mapped) →
      s.printed.reverse = typed [] events)) (fun _ _ holds => holds) ?_
    ⟨knows_initial, fun _ => rfl⟩ bytes
  intro s next events event handled holds
  refine ⟨handled.knows holds.1, fun all => ?_⟩
  rw [List.forall_mem_append, List.forall_mem_singleton] at all
  rw [handled.printed_eq holds.1 all.2, List.reverse_append, holds.2 all.1,
    typed_concat, List.nil_append]
  cases event.character events <;> rfl

/-- A with a shift key, and without. -/
example :
    (run (fun _ => 0#8) [0x2A#8, 0x1E#8, 0x9E#8, 0xAA#8, 0x1E#8]).printed =
      [ascii 'a', ascii 'A'] := by
  decide

end Driver
end Keyboard
end PivotOs
