/-
The terminal: a shell with its session, its transcript and the lines that were entered.
-/
import PageShell.Completion
import PageShell.FileSystem.Manifest
import PageShell.Output.Transcript
import PageShell.Page.History
import PageShell.Shell.Interpreter

namespace PageShell

/-- a shell in use -/
structure Terminal where
  shell : Shell
  session : Session
  transcript : Ring Line
  history : History

namespace Terminal

/-- a terminal with the files of a manifest, and a welcome; if there are none, it says why -/
def mounted (loaded : Except ManifestError FileSystem) : Terminal where
  shell :=
    ⟨match loaded with
      | .ok files => files
      | .error _ => .empty, .standard⟩
  session := .start Site.home Site.environment
  transcript := Ring.push ⟨Site.transcriptCapacity, []⟩
    (match loaded with
      | .ok _ => .text Site.welcome
      | .error e => .error ("Failed to load filesystem: " ++ e.message))
  history := .empty

/-- the terminal of this site, before anything is entered -/
def start : Terminal :=
  mounted (Manifest.load Site.manifest)

/-- a directory as the prompt shows it, with a tilde for the home directory -/
def shortened (cwd : String) : String :=
  match Text.dropStart? Site.home.toList cwd.toList with
  | some [] => "~"
  | some ('/' :: rest) => "~/" ++ String.ofList rest
  | _ => cwd

/-- what stands in front of the field -/
def prompt (t : Terminal) : String :=
  Site.user ++ "@" ++ Site.host ++ ":" ++ shortened t.session.cwd

/-- keep a write -/
def write (t : Terminal) (w : Write) : Terminal :=
  { t with transcript := t.transcript.write w }

/-- show an entered line behind the prompt -/
def echo (t : Terminal) (line : String) : Terminal :=
  t.write (.append (.command t.prompt line))

/-- remember an entered line -/
def remember (t : Terminal) (line : String) : Terminal :=
  { t with history := t.history.add Site.historyCapacity line }

/-- retrieve a line that was entered -/
def retrieve (t : Terminal) (direction : Int) : Option String × Terminal :=
  let (line, history) := t.history.retrieve direction
  (line, { t with history })

/-- complete a line in the working directory -/
def complete (t : Terminal) (line : String) : Completion :=
  t.shell.complete t.session.cwd line

/-- a line is entered: it is shown and remembered unless it is blank -/
def enter (t : Terminal) (line : String) : Terminal :=
  if Text.isBlankText line then t else (t.echo line).remember line

/-- what running a line does -/
def process (t : Terminal) (line : String) : Process Outcome :=
  t.shell.execute t.session line

/-- run a line on a network, from its first write to its last -/
def run (t : Terminal) (net : Network) (line : String) : Terminal × Run Outcome :=
  let r := (t.process line).run net
  ({ t with session := r.result.session, transcript := t.transcript.writeAll r.writes }, r)

end Terminal

end PageShell
