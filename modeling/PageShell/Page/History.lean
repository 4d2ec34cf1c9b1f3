/-
The lines that were entered, and which of them is being recalled.

Blank lines are not kept, nor is a line that repeats the newest one, and only so many of the newest
are. Recalling moves a cursor: backward to older lines, where it stops at the oldest, and forward to
newer ones, behind the newest of which no line is recalled any more.
-/
import PageShell.Text.Blank

namespace PageShell

/-- entered lines, the oldest first -/
structure History where
  lines : List String
  /-- the place of the line being recalled -/
  cursor : Option Nat
  deriving DecidableEq, Repr

namespace History

/-- nothing entered yet -/
def empty : History :=
  ⟨[], none⟩

/-- the lines with one more, at most `capacity` of them -/
def keep (capacity : Nat) (lines : List String) (line : String) : List String :=
  if Text.isBlankText line || lines.getLast? == some line then lines
  else
    let lines := lines ++ [line]
    if capacity < lines.length then lines.tail else lines

/-- a line is entered, which ends recalling -/
def add (capacity : Nat) (h : History) (line : String) : History :=
  ⟨keep capacity h.lines line, none⟩

/-- where the cursor goes: to older lines if `direction` is negative, to newer ones if positive -/
def moved (size : Nat) (cursor : Option Nat) (direction : Int) : Option Nat :=
  match cursor with
  | none => if direction < 0 then some (size - 1) else none
  | some i =>
    if direction < 0 then some (i - 1)
    else if 0 < direction then if i + 1 < size then some (i + 1) else none
    else some i

/-- move the cursor, and retrieve the line it is then at -/
def retrieve (h : History) (direction : Int) : Option String × History :=
  if h.lines.isEmpty then (none, h)
  else
    let cursor := moved h.lines.length h.cursor direction
    (cursor.bind fun i => h.lines[i]?, { h with cursor })

end History

end PageShell
