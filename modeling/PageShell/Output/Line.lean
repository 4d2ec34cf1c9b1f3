/-
Lines of the transcript, and what is written to it.
-/

namespace PageShell

/-- a line of output, or the echo of a line that was entered -/
inductive Line where
  | text (s : String)
  | error (s : String)
  /-- a fragment of markup, shown as it is -/
  | markup (html : String)
  | image (source : String)
  | command (prompt input : String)
  deriving DecidableEq, Repr

/-- the plain text of a line that is plain text -/
def Line.text? : Line → Option String
  | .text s | .error s => some s
  | .markup _ | .image _ | .command _ _ => none

/-- what a command does to the transcript -/
inductive Write where
  | append (line : Line)
  | clear
  deriving DecidableEq, Repr

end PageShell
