/-
Two ways to keep what is written.

`Ring.write` keeps the newest lines as they are. `Plain.write` keeps all lines since the transcript
was last cleared and knows no errors: an error becomes a line of text.
-/
import PageShell.Output.Line
import PageShell.Output.Ring

namespace PageShell

/-- keep a write in a ring of lines -/
def Ring.write (r : Ring Line) : Write → Ring Line
  | .append line => r.push line
  | .clear => r.clear

/-- keep writes one after another -/
def Ring.writeAll (r : Ring Line) (writes : List Write) : Ring Line :=
  writes.foldl Ring.write r

namespace Plain

/-- a line as a transcript without errors shows it -/
def plain : Line → Line
  | .error s => .text s
  | line => line

/-- keep a write among lines without a bound -/
def write (lines : List Line) : Write → List Line
  | .append line => lines ++ [plain line]
  | .clear => []

/-- keep writes one after another -/
def writeAll (lines : List Line) (writes : List Write) : List Line :=
  writes.foldl write lines

end Plain

end PageShell
