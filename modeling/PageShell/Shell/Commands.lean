/-
The commands.

All but `ping` look at the files and the session once and are done. Their first operand is all that
counts; `echo` takes all of them.
-/
import PageShell.Shell.Ping
import PageShell.Shell.Tree
import PageShell.Site

namespace PageShell

namespace Commands

open Text

/-! ## Directories and files -/

/-- list a directory, or name the operand if it is no directory -/
def ls (ctx : Context) (args : List String) : Except ShellError Effect :=
  let path := ctx.resolve args.head?
  let operand := args.head?.getD path
  match ctx.lookup path with
  | some (.dir children) => .ok (.text (Listed.row (Listed.ofChildren children)))
  | some (.file _) | some (.exec _) => .ok (.text operand)
  | none => .error (.cannotAccess operand)

/-- go to a directory, the home directory if none is given; some directories open a page -/
def cd (ctx : Context) (args : List String) : Except ShellError Effect :=
  let path := ctx.resolve (some (args.head?.getD Site.home))
  match ctx.lookup path with
  | some (.dir _) => .ok ⟨[], some path, Site.page? path⟩
  | some (.file _) | some (.exec _) => .error (.notADirectory "cd" path)
  | none => .error (.directoryNotFound path)

/-- draw a directory as a tree -/
def tree (ctx : Context) (args : List String) : Except ShellError Effect :=
  let path := ctx.resolve args.head?
  match ctx.lookup path with
  | none => .error (.notFound "tree" (args.head?.getD path))
  | some e => .ok (.lines ((("." :: Tree.drawBelow "" e)).map .text))

/-- the endings of file names that are shown as images -/
def imageEndings : List String :=
  ["jpg", "jpeg", "png", "gif", "webp"]

/-- what stands behind the last dot of a name; the whole name if it has none -/
def ending (name : String) : String :=
  String.ofList (cutAfterLast (· == '.') name.toList).2

/-- a file of this name is shown as an image -/
def showsImage (name : String) : Bool :=
  imageEndings.contains (ending name)

/-- what `cat` says of an executable -/
def executableText (b : Builtin) : String :=
  b.name ++ ": shell builtin - " ++ b.description

/-- show a file: its text, or an image if the operand ends like one -/
def cat (ctx : Context) (args : List String) : Except ShellError Effect :=
  match args with
  | [] => .error (.missingOperand "cat")
  | operand :: _ =>
    match ctx.lookup (ctx.resolve (some operand)) with
    | none => .error (.notFound "cat" operand)
    | some (.dir _) => .error (.isADirectory "cat" operand)
    | some (.exec b) => .ok (.text (executableText b))
    | some (.file (.text s)) =>
      .ok (.lines [if showsImage operand then .image s else .text s])
    | some (.file (.binary _)) => .error .unsupportedType

/-! ## The session and the commands themselves -/

/-- the operands with the values of variables put in -/
def echo (ctx : Context) (args : List String) : Effect :=
  .text (ctx.session.env.expand (" ".intercalate args))

/-- the variables, one a line -/
def env (ctx : Context) : Effect :=
  .lines (ctx.session.env.vars.map fun v => .text (v.1 ++ "=" ++ v.2))

/-- the registered commands, one a line -/
def help (ctx : Context) : Effect :=
  .lines (.text "Available commands:"
    :: ctx.shell.registry.entries.map fun e => .text (e.name ++ " - " ++ e.description))

/-- where on the search path a command is found -/
def which (ctx : Context) (args : List String) : Except ShellError Effect :=
  match args with
  | [] => .error (.missingOperand "which")
  | name :: _ =>
    match ctx.shell.search ctx.session name with
    | none => .error (.notOnPath name)
    | some (path, _) => .ok (.text path)

/-- link to the owner's profile on Steam, and open it there -/
def steam : Effect :=
  ⟨[.append (.markup Site.steamLink)], none, some Site.steamAddress⟩

end Commands

/-- what a command does when it is called with these operands -/
def Builtin.run (b : Builtin) (ctx : Context) (args : List String) :
    Process (Except ShellError Effect) :=
  match b with
  | .ls => .done (Commands.ls ctx args)
  | .echo => .done (.ok (Commands.echo ctx args))
  | .cat => .done (Commands.cat ctx args)
  | .cd => .done (Commands.cd ctx args)
  | .pwd => .done (.ok (.text ctx.session.cwd))
  | .help => .done (.ok (Commands.help ctx))
  | .clear => .done (.ok { Effect.nothing with writes := [.clear] })
  | .ping => Ping.run args
  | .whoami => .done (.ok (.lines [.markup Site.profileCard]))
  | .steam => .done (.ok Commands.steam)
  | .tree => .done (Commands.tree ctx args)
  | .env => .done (.ok (Commands.env ctx))
  | .which => .done (Commands.which ctx args)
  | .fetchMusic => .done (.ok (.lines [.markup Site.nowPlaying]))

end PageShell
