/-
Walking through the candidates of a completion.

A cycle keeps the line that the candidates share, the candidates, and which of them is selected. It
is active as long as it has candidates.
-/
import PageShell.Text.Split

namespace PageShell

/-- the candidates on show -/
structure TabCycle where
  /-- the line that was completed, as far as the candidates agree -/
  base : String
  candidates : List String
  /-- the place of the selected candidate -/
  index : Nat
  deriving DecidableEq, Repr

namespace TabCycle

/-- no candidates -/
def idle : TabCycle :=
  ⟨"", [], 0⟩

/-- candidates with the first one selected -/
def start (base : String) (candidates : List String) : TabCycle :=
  ⟨base, candidates, 0⟩

/-- there are candidates -/
def isActive (t : TabCycle) : Bool :=
  !t.candidates.isEmpty

/-- select the next candidate, the first one behind the last -/
def advance (t : TabCycle) : TabCycle :=
  if t.candidates.isEmpty then t else { t with index := (t.index + 1) % t.candidates.length }

/-- words of a line end at a space or a slash -/
def endsWord (c : Char) : Bool :=
  c == ' ' || c == '/'

/-- the line with the selected candidate in place of its last word -/
def completion? (t : TabCycle) : Option String :=
  t.candidates[t.index]?.map fun selected =>
    String.ofList (Text.cutAfterLast endsWord t.base.toList).1 ++ selected

end TabCycle

end PageShell
