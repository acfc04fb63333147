import Mathlib.Data.List.Basic
import Mathlib.Logic.Function.Basic

/-!
# Buffers

A buffer has room for a number of items, and storing an item outside it is
refused.  A function that stores a text item by item is described by `storeAll`,
and what the buffer holds afterwards by `overlay`.
-/

universe u

/-- A buffer with room for `size` items. -/
structure Buffer (α : Type u) (size : Nat) where
  /-- The item at an index. -/
  item : Nat → α

namespace Buffer

variable {α : Type u} {size : Nat} {index count : Nat} {value : α}
  {values others : List α} {buffer : Buffer α size}

/-- Store an item. -/
def store (index : Nat) (value : α) (buffer : Buffer α size) :
    Option (Buffer α size) :=
  if index < size then some ⟨Function.update buffer.item index value⟩
  else none

/-- Store items one after another. -/
def storeAll : Nat → List α → Buffer α size → Option (Buffer α size)
  | _, [], buffer => some buffer
  | index, value :: values, buffer =>
      (buffer.store index value).bind (storeAll (index + 1) values)

/-- The buffer with these items from an index on. -/
def overlay (index : Nat) (values : List α) (buffer : Buffer α size) :
    Buffer α size where
  item := fun place =>
    if place < index then buffer.item place
    else values[place - index]?.getD (buffer.item place)

/-- The first items. -/
def read (count : Nat) (buffer : Buffer α size) : List α :=
  (List.range count).map buffer.item

@[ext] theorem ext
    {left right : Buffer α size}
    (same : ∀ place, left.item place = right.item place) :
    left = right := by
  cases left
  cases right
  congr
  exact funext same

@[simp] theorem storeAll_nil : storeAll index [] buffer = some buffer := rfl

theorem storeAll_cons :
    storeAll index (value :: values) buffer =
      (buffer.store index value).bind (storeAll (index + 1) values) := rfl

theorem storeAll_append :
    storeAll index (values ++ others) buffer =
      (storeAll index values buffer).bind
        (storeAll (index + values.length) others) := by
  induction values generalizing index buffer with
  | nil => rfl
  | cons value values inductionHypothesis =>
      rw [List.cons_append, storeAll_cons, storeAll_cons, Option.bind_assoc,
        List.length_cons]
      refine congrArg _ (funext fun middle => ?_)
      rw [inductionHypothesis, Nat.add_right_comm, Nat.add_assoc]

@[simp] theorem overlay_nil : overlay index [] buffer = buffer := by
  ext place
  simp [overlay]

/-- Storing the first item, and then the others. -/
theorem overlay_cons :
    overlay index (value :: values) buffer =
      overlay (index + 1) values
        (⟨Function.update buffer.item index value⟩ : Buffer α size) := by
  ext place
  unfold overlay
  rcases Nat.lt_trichotomy place index with below | rfl | above
  · simp [below, Nat.lt_succ_of_lt below, Nat.ne_of_lt below]
  · simp
  · obtain ⟨rest, rfl⟩ := Nat.exists_eq_add_of_lt above
    have beyond : ¬ index + rest + 1 < index := by omega
    have behind : ¬ index + rest + 1 < index + 1 := by omega
    have place_eq : index + rest + 1 - index = rest + 1 := by omega
    have rest_eq : index + rest + 1 - (index + 1) = rest := by omega
    have different : index + rest + 1 ≠ index := by omega
    simp only [if_neg beyond, if_neg behind, place_eq, rest_eq,
      List.getElem?_cons_succ, Function.update_of_ne different]

/-- Items that fit are stored, and otherwise a store is refused; no items are
stored anywhere. -/
theorem storeAll_eq (proper : index ≤ size ∨ values ≠ []) :
    storeAll index values buffer =
      if index + values.length ≤ size then some (overlay index values buffer)
      else none := by
  induction values generalizing index buffer with
  | nil => simp [proper.resolve_right fun nonempty => nonempty rfl]
  | cons value values inductionHypothesis =>
      rw [storeAll_cons, store, overlay_cons, List.length_cons]
      by_cases inside : index < size
      · have sum : index + 1 + values.length = index + (values.length + 1) := by
          omega
        rw [if_pos inside, Option.bind_some, inductionHypothesis (Or.inl inside),
          Nat.succ_eq_add_one, sum]
      · rw [if_neg inside, if_neg (by omega)]
        rfl

theorem read_succ :
    buffer.read (count + 1) = buffer.read count ++ [buffer.item count] := by
  simp [read, List.range_succ]

/-- The items in front of the overlay, and then the overlay. -/
theorem read_overlay :
    (overlay count values buffer).read (count + values.length) =
      buffer.read count ++ values := by
  rw [read, List.range_add, List.map_append, read]
  congr 1
  · refine List.map_congr_left fun place member => ?_
    simp [overlay, List.mem_range.mp member]
  · rw [List.map_map]
    refine List.ext_getElem (by simp) fun place shorter _ => ?_
    have inside : place < values.length := by simpa using shorter
    have beyond : ¬ count + place < count := by omega
    simp [overlay, inside, beyond]

/-- The items can be read off the overlay. -/
theorem overlay_injective
    (length_eq : values.length = others.length)
    (same : overlay index values buffer = overlay index others buffer) :
    values = others := by
  refine List.ext_getElem length_eq fun place inside otherInside => ?_
  have beyond : ¬ index + place < index := by omega
  have item_eq := congrArg (fun shown => shown.item (index + place)) same
  simpa [overlay, beyond, inside, otherInside] using item_eq

end Buffer
