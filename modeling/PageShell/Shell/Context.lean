/-
What a command sees, and what it asks for.

A command sees the files, the registry and the session. It either fails, and then has done nothing,
or asks for an `Effect`: lines to write, perhaps a new working directory, perhaps a page to open.
-/
import PageShell.FileSystem.Basic
import PageShell.Output.Line
import PageShell.Path.Resolve
import PageShell.Session
import PageShell.Shell.Error
import PageShell.Shell.Registry

namespace PageShell

/-- the files and the registered commands that lines are run against -/
structure Shell where
  files : FileSystem
  registry : Registry

/-- what a command sees -/
structure Context where
  shell : Shell
  session : Session

/-- what a command that succeeds asks for -/
structure Effect where
  writes : List Write
  /-- the new working directory -/
  cwd : Option String
  /-- the page to open -/
  page : Option String
  deriving DecidableEq, Repr

namespace Effect

/-- ask for nothing -/
def nothing : Effect :=
  ⟨[], none, none⟩

/-- ask for these lines -/
def lines (ls : List Line) : Effect :=
  { nothing with writes := ls.map .append }

/-- ask for one line of text -/
def text (s : String) : Effect :=
  lines [.text s]

end Effect

namespace Context

/-- where a path leads from the working directory -/
def resolve (ctx : Context) (path : Option String) : String :=
  Path.resolve path ctx.session.cwd

/-- the entry that a path leads to -/
def lookup (ctx : Context) (path : String) : Option Entry :=
  ctx.shell.files.lookup path

end Context

/-! ## The search path -/

/-- the executable that `name` is in one directory of the search path, with its path -/
def FileSystem.executable? (fs : FileSystem) (directory name : String) :
    Option (String × Builtin) :=
  let path := directory ++ "/" ++ name
  match fs.lookup path with
  | some (.exec b) => some (path, b)
  | _ => none

namespace Shell

/-- the first executable of a name on the search path, with its path -/
def search (shell : Shell) (session : Session) (name : String) : Option (String × Builtin) :=
  session.searchPath.findSome? fun directory => shell.files.executable? directory name

/-- the command that a name runs: a registered one, else one on the search path -/
def command? (shell : Shell) (session : Session) (name : String) : Option Builtin :=
  match shell.registry.get? name with
  | some e => some e.builtin
  | none => (shell.search session name).map (·.2)

end Shell

end PageShell
