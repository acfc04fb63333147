import PivotOs.Keyboard.Defs

/-!
# Modifiers and lookups

What the driver is meant to do with a stream of scancodes: the bytes are events
of keys, and a modifier is held when the last event of its key was a press.
The driver keeps exactly that in `current_modifiers`.  Its lookups stay inside
the tables as long as no key without an entry is pressed: the tables end at
scancode 0x53, and `translate` hands on every scancode below 0x60.
-/

namespace PivotOs
namespace Keyboard

/-! ## Events -/

/-- An event of a key. -/
structure KeyEvent where
  /-- The scancode, without the release bit. -/
  code : Byte
  /-- The prefix came before it. -/
  extended : Bool
  /-- The key was pressed, not released. -/
  pressed : Bool

/-- The event of a byte that is not the prefix. -/
def KeyEvent.ofByte (extended : Bool) (byte : Byte) : KeyEvent where
  code := byte &&& ~~~keyReleaseMask
  extended := extended
  pressed := byte &&& keyReleaseMask = 0#8

/-- The events of a stream, behind the prefix or not. -/
def decode : (extended : Bool) → List Byte → List KeyEvent
  | _, [] => []
  | extended, byte :: bytes =>
      if byte = extendedPrefix then decode true bytes
      else KeyEvent.ofByte extended byte :: decode false bytes

/-- The modifier whose key an event is about.  The prefix tells the right one of
two keys for Ctrl and Alt. -/
def KeyEvent.modifier (event : KeyEvent) : Option KeyModifier :=
  if event.code = leftCtrlCode then
    some (if event.extended then .rightCtrl else .leftCtrl)
  else if event.code = leftAltCode then
    some (if event.extended then .rightAlt else .leftAlt)
  else if event.code = leftGuiCode then some .leftGui
  else if event.code = rightGuiCode then some .rightGui
  else if event.code = leftShiftCode then some .leftShift
  else if event.code = rightShiftCode then some .rightShift
  else none

/-- Whether the last event of the key was a press, if there was one. -/
def lastPress (modifier : KeyModifier) (events : List KeyEvent) : Option Bool :=
  ((events.filter fun event => event.modifier = some modifier).getLast?).map
    KeyEvent.pressed

/-- The modifier is held. -/
def Held (modifier : KeyModifier) (events : List KeyEvent) : Prop :=
  lastPress modifier events = some true

/-- The scancode that `translate` hands on for an event. -/
def KeyEvent.handedOn (event : KeyEvent) : Byte :=
  if event.code < 0x60#8 then event.code else 0#8

/-- A press has an entry in the tables. -/
def KeyEvent.Mapped (event : KeyEvent) : Prop :=
  event.pressed = true → event.handedOn.toNat < 84

instance (event : KeyEvent) : Decidable event.Mapped :=
  inferInstanceAs (Decidable (_ → _))

/-- The byte is a press of a key that has no entry in the tables, but is handed
on to `get_char`: F11, F12 and the GUI keys among them. -/
def Unmapped (byte : Byte) : Prop := 0x54#8 ≤ byte ∧ byte < 0x60#8

instance (byte : Byte) : Decidable (Unmapped byte) :=
  inferInstanceAs (Decidable (_ ∧ _))

theorem lastPress_concat
    (modifier : KeyModifier)
    (events : List KeyEvent)
    (event : KeyEvent) :
    lastPress modifier (events ++ [event]) =
      if event.modifier = some modifier then some event.pressed
      else lastPress modifier events := by
  unfold lastPress
  rw [List.filter_append]
  by_cases own : event.modifier = some modifier
  · rw [List.filter_cons_of_pos (by simpa using own), List.filter_nil,
      List.getLast?_concat, if_pos own, Option.map_some]
  · rw [List.filter_cons_of_neg (by simpa using own), List.filter_nil,
      List.append_nil, if_neg own]

theorem mapped_ofByte_iff (extended : Bool) (byte : Byte) :
    (KeyEvent.ofByte extended byte).Mapped ↔ ¬ Unmapped byte := by
  cases extended <;> revert byte <;> decide

theorem decode_mapped_iff (extended : Bool) (bytes : List Byte) :
    (∀ event ∈ decode extended bytes, event.Mapped) ↔
      ∀ byte ∈ bytes, ¬ Unmapped byte := by
  induction bytes generalizing extended with
  | nil => exact iff_of_true (List.forall_mem_nil _) (List.forall_mem_nil _)
  | cons byte bytes inductionHypothesis =>
      rw [decode, List.forall_mem_cons]
      by_cases isPrefix : byte = extendedPrefix
      · have mapped : ¬ Unmapped byte := by
          rw [isPrefix]
          decide
        rw [if_pos isPrefix, inductionHypothesis, and_iff_right mapped]
      · rw [if_neg isPrefix, List.forall_mem_cons, inductionHypothesis,
          mapped_ofByte_iff]

/-! ## Single steps -/

theorem getLsbD_mask (modifier other : KeyModifier) :
    modifier.mask.getLsbD other.bit = decide (other = modifier) := by
  cases modifier <;> cases other <;> rfl

theorem KeyModifier.bit_lt (modifier : KeyModifier) : modifier.bit < 8 := by
  cases modifier <;> decide

namespace Driver

variable {s next : Driver} {behind : Lookup → Byte} {byte : Byte}
  {modifier : KeyModifier} {event : KeyEvent}

theorem updateModifiers_bit (other : KeyModifier) (isPressed : Byte) :
    (s.updateModifiers other isPressed).currentModifiers.getLsbD modifier.bit =
      if other = modifier then decide (isPressed ≠ 0#8)
      else s.currentModifiers.getLsbD modifier.bit := by
  unfold updateModifiers
  by_cases pressed : isPressed ≠ 0#8
  · rw [if_pos pressed, BitVec.getLsbD_or, getLsbD_mask]
    by_cases own : other = modifier
    · simp [own, pressed]
    · simp [own, Ne.symm own]
  · rw [if_neg pressed, BitVec.getLsbD_and, BitVec.getLsbD_not, getLsbD_mask]
    by_cases own : other = modifier
    · simp [own, pressed]
    · simp [own, Ne.symm own, modifier.bit_lt]

theorem updateModifiers_frame (isPressed : Byte) :
    s.updateModifiers modifier isPressed =
      { s with currentModifiers :=
          (s.updateModifiers modifier isPressed).currentModifiers } := by
  unfold updateModifiers
  split <;> rfl

/-- The `switch` is about the key of the event. -/
theorem switchModifiers_eq
    (extended : event.extended = decide (s.extendedRead ≠ 0#8)) :
    s.switchModifiers event.code =
      event.modifier.elim s fun modifier =>
        s.updateModifiers modifier s.isPressed := by
  simp only [switchModifiers, KeyEvent.modifier, apply_ite fun found =>
      Option.elim found s fun modifier => s.updateModifiers modifier s.isPressed,
    Option.elim_some, Option.elim_none, extended, decide_eq_true_eq]

theorem switchModifiers_frame
    (extended : event.extended = decide (s.extendedRead ≠ 0#8)) :
    s.switchModifiers event.code =
      { s with currentModifiers :=
          (s.switchModifiers event.code).currentModifiers } := by
  rw [switchModifiers_eq extended]
  cases event.modifier with
  | none => rfl
  | some modifier => exact updateModifiers_frame s.isPressed

theorem switchModifiers_bit
    (extended : event.extended = decide (s.extendedRead ≠ 0#8))
    (pressed : event.pressed = decide (s.isPressed ≠ 0#8)) :
    (s.switchModifiers event.code).currentModifiers.getLsbD modifier.bit =
      if event.modifier = some modifier then event.pressed
      else s.currentModifiers.getLsbD modifier.bit := by
  rw [switchModifiers_eq extended, pressed]
  cases event.modifier with
  | none => rfl
  | some other =>
      rw [Option.elim_some, updateModifiers_bit]
      exact if_congr Option.some_inj.symm rfl rfl

/-- No modifier has a scancode from 0x60 on. -/
theorem switchModifiers_of_le
    {code : Byte}
    (large : ¬ code < 0x60#8) :
    s.switchModifiers code = s := by
  have others : code ≠ leftCtrlCode ∧ code ≠ leftAltCode ∧
      code ≠ leftGuiCode ∧ code ≠ rightGuiCode ∧ code ≠ leftShiftCode ∧
        code ≠ rightShiftCode := by
    refine ⟨?_, ?_, ?_, ?_, ?_, ?_⟩ <;>
    · rintro rfl
      exact large (by decide)
  obtain ⟨ctrl, alt, leftGui, rightGui, leftShift, rightShift⟩ := others
  rw [switchModifiers, if_neg ctrl, if_neg alt, if_neg leftGui,
    if_neg rightGui, if_neg leftShift, if_neg rightShift]

/-- What the driver does with an event. -/
structure Handled (behind : Lookup → Byte) (s next : Driver) (event : KeyEvent) :
    Prop where
  /-- The prefix counts for one event. -/
  extendedRead : next.extendedRead = 0#8
  /-- Only the modifier of the event changes. -/
  bit : ∀ modifier : KeyModifier,
    next.currentModifiers.getLsbD modifier.bit =
      if event.modifier = some modifier then event.pressed
      else s.currentModifiers.getLsbD modifier.bit
  /-- A release is neither looked up nor printed. -/
  released : event.pressed = false →
    next.lookups = s.lookups ∧ next.printed = s.printed
  /-- A press is looked up, and its character is printed unless it is 0. -/
  pressed : event.pressed = true →
    next.lookups = next.lookup event.handedOn :: s.lookups ∧
      next.printed =
        if next.getChar behind event.handedOn ≠ 0#8 then
          next.getChar behind event.handedOn :: s.printed
        else s.printed

/-- `translate` first takes the release bit off. -/
theorem translate_event (notPrefix : byte ≠ extendedPrefix) :
    s.translate byte =
      ((KeyEvent.ofByte (s.extendedRead ≠ 0#8) byte).handedOn,
        { ({ s with
              isPressed :=
                if byte &&& keyReleaseMask = 0#8 then 1#8 else 0#8 } :
            Driver).switchModifiers (byte &&& ~~~keyReleaseMask) with
          extendedRead := 0#8 }) := by
  have unreleased : byte &&& keyReleaseMask = 0#8 →
      byte &&& ~~~keyReleaseMask = byte := by
    revert byte
    decide
  rw [translate, if_neg notPrefix, KeyEvent.handedOn, KeyEvent.ofByte]
  by_cases pressed : byte &&& keyReleaseMask = 0#8
  · simp only [pressed, ne_eq, not_true_eq_false, if_false, if_true,
      unreleased pressed]
    split
    · rfl
    · next large => rw [switchModifiers_of_le large]
  · simp only [pressed, ne_eq, not_false_eq_true, if_false, if_true]
    split
    · rfl
    · next large => rw [switchModifiers_of_le large]

/-- A byte that is not the prefix is handled as an event. -/
theorem keyboardHandler_event (notPrefix : byte ≠ extendedPrefix) :
    Handled behind s (s.keyboardHandler behind byte)
      (KeyEvent.ofByte (s.extendedRead ≠ 0#8) byte) := by
  set event := KeyEvent.ofByte (s.extendedRead ≠ 0#8) byte
  set middle : Driver :=
    { s with isPressed := if byte &&& keyReleaseMask = 0#8 then 1#8 else 0#8 }
    with middle_eq
  have pressed_eq : event.pressed = decide (middle.isPressed ≠ 0#8) := by
    change decide (byte &&& keyReleaseMask = 0#8) = _
    rw [middle_eq]
    split <;> simp_all
  have bit : ∀ modifier : KeyModifier,
      (middle.switchModifiers event.code).currentModifiers.getLsbD modifier.bit =
        if event.modifier = some modifier then event.pressed
        else s.currentModifiers.getLsbD modifier.bit := fun modifier =>
    switchModifiers_bit rfl pressed_eq
  have frame : middle.switchModifiers event.code = { middle with
      currentModifiers :=
        (middle.switchModifiers event.code).currentModifiers } :=
    switchModifiers_frame rfl
  have translated : s.translate byte = (event.handedOn,
      { middle.switchModifiers event.code with extendedRead := 0#8 }) :=
    translate_event notPrefix
  rw [frame] at translated
  rw [keyboardHandler, translated, if_neg notPrefix]
  by_cases pressed : middle.isPressed = 0#8
  · have release : event.pressed = false := by simp [pressed_eq, pressed]
    rw [if_pos pressed]
    exact
      { extendedRead := rfl
        bit := bit
        released := fun _ => ⟨rfl, rfl⟩
        pressed := by simp [release] }
  · have press : event.pressed = true := by simp [pressed_eq, pressed]
    rw [if_neg pressed]
    dsimp only
    split
    · next shown =>
        exact
          { extendedRead := rfl
            bit := bit
            released := by simp [press]
            pressed := fun _ => ⟨rfl, (if_pos shown).symm⟩ }
    · next blank =>
        exact
          { extendedRead := rfl
            bit := bit
            released := by simp [press]
            pressed := fun _ => ⟨rfl, (if_neg blank).symm⟩ }

/-- The prefix is remembered. -/
theorem keyboardHandler_prefix :
    s.keyboardHandler behind extendedPrefix =
      { s with isPressed := 1#8, extendedRead := 1#8 } := rfl

/-! ## Runs -/

/-- What the prefix and every event keep holds after a stream. -/
theorem foldl_invariant
    (Invariant : Driver → List KeyEvent → Prop)
    {extended : Bool} {events : List KeyEvent}
    (remember : ∀ s events, Invariant s events →
      Invariant { s with isPressed := 1#8, extendedRead := 1#8 } events)
    (step : ∀ s next events event, Handled behind s next event →
      Invariant s events → Invariant next (events ++ [event]))
    (bytes : List Byte)
    (extended_eq : extended = decide (s.extendedRead ≠ 0#8))
    (holds : Invariant s events) :
    Invariant (bytes.foldl (keyboardHandler behind) s)
      (events ++ decode extended bytes) := by
  induction bytes generalizing s extended events with
  | nil =>
      rw [decode, List.append_nil]
      exact holds
  | cons byte bytes inductionHypothesis =>
      rw [List.foldl_cons, decode]
      by_cases isPrefix : byte = extendedPrefix
      · rw [if_pos isPrefix, isPrefix, keyboardHandler_prefix]
        exact inductionHypothesis rfl (remember s events holds)
      · have handled : Handled behind s (s.keyboardHandler behind byte)
            (KeyEvent.ofByte (s.extendedRead ≠ 0#8) byte) :=
          keyboardHandler_event isPrefix
        have next : false = decide
            ((s.keyboardHandler behind byte).extendedRead ≠ 0#8) := by
          rw [handled.extendedRead]
          rfl
        rw [if_neg isPrefix, List.append_cons, extended_eq]
        exact inductionHypothesis next (step _ _ _ _ handled holds)

theorem run_invariant
    (Invariant : Driver → List KeyEvent → Prop)
    (remember : ∀ s events, Invariant s events →
      Invariant { s with isPressed := 1#8, extendedRead := 1#8 } events)
    (step : ∀ s next events event, Handled behind s next event →
      Invariant s events → Invariant next (events ++ [event]))
    (start : Invariant initial [])
    (bytes : List Byte) :
    Invariant (run behind bytes) (decode false bytes) :=
  foldl_invariant Invariant remember step bytes rfl start

/-- A modifier's bit is set exactly when it is held. -/
def Knows (s : Driver) (events : List KeyEvent) : Prop :=
  ∀ modifier : KeyModifier,
    s.currentModifiers.getLsbD modifier.bit = true ↔ Held modifier events

theorem knows_initial : initial.Knows [] := by
  intro modifier
  have clear : initial.currentModifiers.getLsbD modifier.bit = false :=
    BitVec.getLsbD_zero
  rw [clear]
  exact iff_of_false Bool.false_ne_true (Option.some_ne_none true).symm

theorem Handled.knows
    {events : List KeyEvent}
    (handled : Handled behind s next event)
    (knows : s.Knows events) :
    next.Knows (events ++ [event]) := by
  intro modifier
  rw [handled.bit, Held, lastPress_concat]
  split
  · exact Option.some_inj.symm
  · exact knows modifier

/-- The driver always knows which modifiers are held. -/
theorem run_knows (behind : Lookup → Byte) (bytes : List Byte) :
    (run behind bytes).Knows (decode false bytes) :=
  run_invariant Knows (fun _ _ knows => knows)
    (fun _ _ _ _ handled knows => handled.knows knows) knows_initial bytes

theorem table_length (lookup : Lookup) : lookup.table.length = 84 := by
  unfold Lookup.table
  split <;> decide

/-- The lookups of an event stay inside the tables unless it is the press of a
key without an entry. -/
theorem Handled.inside_iff (handled : Handled behind s next event) :
    (∀ lookup ∈ next.lookups, lookup.Inside) ↔
      (∀ lookup ∈ s.lookups, lookup.Inside) ∧ event.Mapped := by
  rw [KeyEvent.Mapped]
  cases press : event.pressed with
  | false => simp [(handled.released press).1]
  | true =>
      rw [(handled.pressed press).1, List.forall_mem_cons, Lookup.Inside,
        table_length, lookup, and_comm, imp_iff_right rfl]

/-- The lookups are inside the tables exactly when every event has an entry. -/
theorem run_inside_iff (behind : Lookup → Byte) (bytes : List Byte) :
    (∀ lookup ∈ (run behind bytes).lookups, lookup.Inside) ↔
      ∀ event ∈ decode false bytes, event.Mapped := by
  refine run_invariant (fun s events =>
    (∀ lookup ∈ s.lookups, lookup.Inside) ↔ ∀ event ∈ events, event.Mapped)
    (fun _ _ holds => holds) ?_
    (iff_of_true (List.forall_mem_nil _) (List.forall_mem_nil _)) bytes
  intro s next events event handled holds
  rw [handled.inside_iff, holds, List.forall_mem_append,
    List.forall_mem_singleton]

/-- The driver handles a stream as it is meant to: its lookups are inside the
tables, and after each byte it knows the modifiers that are held. -/
structure Correct (behind : Lookup → Byte) (bytes : List Byte) : Prop where
  /-- The lookups. -/
  lookups : ∀ lookup ∈ (run behind bytes).lookups, lookup.Inside
  /-- The modifiers. -/
  modifiers : ∀ before : List Byte, before <+: bytes →
    (run behind before).Knows (decode false before)

/-- The driver handles exactly those streams as it is meant to that have no
press of a key without an entry in the tables. -/
theorem correct_iff (behind : Lookup → Byte) (bytes : List Byte) :
    Correct behind bytes ↔ ∀ byte ∈ bytes, ¬ Unmapped byte := by
  rw [← decode_mapped_iff false, ← run_inside_iff behind]
  constructor
  · exact Correct.lookups
  · intro inside
    exact
      { lookups := inside
        modifiers := fun before _ => run_knows behind before }

/-- Pressing F11 looks up entry 87 of 84. -/
theorem f11_outside :
    ¬ ∀ (behind : Lookup → Byte) (bytes : List Byte),
      Correct behind bytes := by
  intro always
  have outside := (always (fun _ => 0#8) [0x57#8]).lookups ⟨false, 0x57⟩
    (List.mem_singleton.mpr rfl)
  exact absurd outside (by decide)

end Driver
end Keyboard
end PivotOs
