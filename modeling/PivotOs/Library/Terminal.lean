import Mathlib.Data.Option.Basic

/-!
# Terminals

A terminal is a grid of cells with a cursor on one of them.  A symbol is put in
the cell of the cursor.  Behind the end of a line the next line is started, and
behind the last line the terminal is cleared.  Going back finds the last symbol of
the line that shows.
-/

universe u

/-- The cells, where a symbol may have been put, and the cursor. -/
structure Terminal (Sym : Type u) where
  /-- The number of columns. -/
  cols : Nat
  /-- The number of lines. -/
  rows : Nat
  /-- The symbols, by column and line. -/
  cell : Nat → Nat → Option Sym
  /-- The column of the cursor. -/
  x : Nat
  /-- The line of the cursor. -/
  y : Nat
  /-- The cursor is in a column. -/
  x_lt : x < cols
  /-- The cursor is in a line. -/
  y_lt : y < rows

namespace Terminal

variable {Sym : Type u} (t : Terminal Sym)

/-- Move the cursor. -/
def moveTo (x y : Nat) (x_lt : x < t.cols) (y_lt : y < t.rows) : Terminal Sym :=
  { t with x := x, y := y, x_lt := x_lt, y_lt := y_lt }

/-- Every cell is empty, and the cursor is in the first one. -/
def clear : Terminal Sym where
  cols := t.cols
  rows := t.rows
  cell := fun _ _ => none
  x := 0
  y := 0
  x_lt := Nat.zero_lt_of_lt t.x_lt
  y_lt := Nat.zero_lt_of_lt t.y_lt

/-- The symbol in the cell of the cursor is replaced. -/
def write (sym : Sym) : Terminal Sym :=
  { t with
    cell := fun x y => if x = t.x ∧ y = t.y then some sym else t.cell x y }

/-- Start the next line. -/
def newline : Terminal Sym :=
  if below : t.y + 1 < t.rows then
    t.moveTo 0 (t.y + 1) (Nat.zero_lt_of_lt t.x_lt) below
  else t.clear

/-- Put a symbol and go on. -/
def put (sym : Sym) : Terminal Sym :=
  if room : t.x + 1 < t.cols then (t.write sym).moveTo (t.x + 1) t.y room t.y_lt
  else (t.write sym).newline

/-! ## Going back -/

section

variable (Visible : Sym → Prop)

/-- The symbol in a cell shows. -/
def Shows (x y : Nat) : Prop := ∃ sym, t.cell x y = some sym ∧ Visible sym

instance [DecidablePred Visible] (x y : Nat) :
    Decidable (t.Shows Visible x y) :=
  match eq : t.cell x y with
  | none => isFalse fun ⟨_, found, _⟩ => by simp [eq] at found
  | some sym =>
      decidable_of_iff (Visible sym)
        ⟨fun visible => ⟨sym, eq, visible⟩, fun ⟨_, found, visible⟩ =>
          Option.some.inj (eq.symm.trans found) ▸ visible⟩

variable [DecidablePred Visible]

/-- The last column up to this one with a symbol that shows, or the first
column. -/
def lastShown (y : Nat) : (x : Nat) → Nat
  | 0 => 0
  | x + 1 => if t.Shows Visible (x + 1) y then x + 1 else lastShown y x

theorem lastShown_le (y x : Nat) : t.lastShown Visible y x ≤ x := by
  induction x with
  | zero => exact Nat.le_refl _
  | succ x inductionHypothesis =>
      rw [lastShown]
      split
      · exact Nat.le_refl _
      · exact Nat.le_succ_of_le inductionHypothesis

/-- It is the column that a search from behind stops at. -/
theorem lastShown_eq
    {x y column : Nat}
    (le : column ≤ x)
    (stopped : column = 0 ∨ t.Shows Visible column y)
    (between : ∀ other, column < other → other ≤ x →
      ¬ t.Shows Visible other y) :
    t.lastShown Visible y x = column := by
  induction x with
  | zero => exact (Nat.le_zero.mp le).symm
  | succ x inductionHypothesis =>
      rw [lastShown]
      rcases Nat.eq_or_lt_of_le le with rfl | before
      · exact if_pos (stopped.resolve_left (Nat.succ_ne_zero x))
      · rw [if_neg (between (x + 1) before (Nat.le_refl _))]
        exact inductionHypothesis (Nat.le_of_lt_succ before)
          fun other above below => between other above (Nat.le_succ_of_le below)

/-- Go back to the last symbol that shows, in this line, or in the line above
when the cursor is in the first column. -/
def back : Terminal Sym :=
  if t.x = 0 then
    if t.y = 0 then t
    else
      t.moveTo (t.lastShown Visible (t.y - 1) (t.cols - 1)) (t.y - 1)
        (Nat.lt_of_le_of_lt (t.lastShown_le Visible _ _)
          (Nat.sub_one_lt_of_lt t.x_lt))
        (Nat.lt_of_le_of_lt (Nat.sub_le _ _) t.y_lt)
  else
    t.moveTo (t.lastShown Visible t.y (t.x - 1)) t.y
      (Nat.lt_of_le_of_lt (t.lastShown_le Visible _ _)
        (Nat.lt_of_le_of_lt (Nat.sub_le _ _) t.x_lt))
      t.y_lt

end

end Terminal
