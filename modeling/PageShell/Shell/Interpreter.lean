/-
Running a line.

The first word of a line names a command and the others are its operands. A blank line does nothing.
An error is written as the last thing a line does, sets the exit status and leaves the session as it
was; an effect is written, moves the session and is a success.
-/
import PageShell.Shell.Commands
import PageShell.Text.Blank

namespace PageShell

/-- what running a line comes to -/
structure Outcome where
  session : Session
  status : ExitStatus
  /-- the page to open -/
  page : Option String
  deriving DecidableEq

namespace Outcome

/-- success, with nothing to open -/
def success (session : Session) : Outcome :=
  ⟨session, 0, none⟩

/-- the exit status of success -/
def isSuccess (o : Outcome) : Bool :=
  o.status == 0

end Outcome

namespace Session

/-- the session with a new working directory, if there is one -/
def move (s : Session) : Option String → Session
  | none => s
  | some cwd => { s with cwd }

end Session

/-- how a line ends whose command ended with this result -/
def conclude (session : Session) : Except ShellError Effect → Process Outcome
  | .ok effect => .writeAll effect.writes (.done ⟨session.move effect.cwd, 0, effect.page⟩)
  | .error e => .write (.append (.error e.message)) (.done ⟨session, e.status, none⟩)

/-- run a line -/
def Shell.execute (shell : Shell) (session : Session) (line : String) : Process Outcome :=
  match Text.words line with
  | [] => .done (.success session)
  | name :: args =>
    match shell.command? session name with
    | none => conclude session (.error (.commandNotFound name))
    | some b => (b.run ⟨shell, session⟩ args).andThen (conclude session)

end PageShell
