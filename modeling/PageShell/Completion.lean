/-
Completion of a line that is being entered.

The first word is completed to a registered name. An operand of `cd`, `ls` and `tree` is completed
to a directory, one of `cat` to any entry; what stands up to the last slash of the operand says
where the entry is looked for. One candidate completes the line; of several, the line gets what
they have in common, and all are shown.
-/
import PageShell.Shell.Context
import PageShell.Text.Blank

namespace PageShell

/-- what a line can be completed to -/
inductive Completion where
  | none
  /-- the only candidate, in its line -/
  | single (line : String)
  /-- the line with what the candidates have in common, and the candidates -/
  | several (line : String) (candidates : List String)
  deriving DecidableEq, Repr

/-- which entries can stand as the operand of a command -/
inductive OperandKind where
  | directory
  | any
  deriving DecidableEq, Repr

namespace OperandKind

/-- the kind of operand that a command takes; none if operands are not completed -/
def ofCommand? (command : String) : Option OperandKind :=
  if ["cd", "ls", "tree"].contains command then some .directory
  else if command = "cat" then some .any
  else Option.none

/-- an entry can stand as such an operand -/
def admits : OperandKind → Listed → Bool
  | .directory, l => l.isDir
  | .any, _ => true

end OperandKind

/-- an operand up to its last slash, and behind it -/
structure PartialPath where
  directory : String
  name : String
  deriving DecidableEq, Repr

namespace PartialPath

/-- an operand cut behind its last slash -/
def ofOperand (operand : String) : PartialPath :=
  let cut := Text.cutAfterLast Path.isSlash operand.toList
  ⟨String.ofList cut.1, String.ofList cut.2⟩

/-- the directory whose entries complete the operand -/
def searched (p : PartialPath) (cwd : String) : String :=
  Path.resolve (some p.directory) cwd

end PartialPath

namespace Completion

/-- a text that starts with another -/
def startsWith (text start : String) : Bool :=
  start.toList.isPrefixOf text.toList

/-- what all texts of a list start with; the cut always falls between two characters -/
def common (texts : List String) : String :=
  String.ofList ((Text.commonStart? (texts.map String.toList)).getD [])

/-- complete the first word of a line -/
def ofCommand (registry : Registry) (word : String) : Completion :=
  match registry.names.filter (startsWith · word) with
  | [] => .none
  | [name] => .single (name ++ " ")
  | names => .several (common names) names

/-- the entries that an operand can be completed to -/
def eligible (files : FileSystem) (cwd : String) (kind : OperandKind) (p : PartialPath) :
    List Listed :=
  ((files.listing (p.searched cwd)).getD []).filter fun l =>
    kind.admits l && startsWith l.name p.name

/-- complete the operand of a line -/
def ofOperand (files : FileSystem) (cwd command : String) (kind : OperandKind)
    (operand : String) : Completion :=
  let p := PartialPath.ofOperand operand
  let start := command ++ " " ++ p.directory
  match eligible files cwd kind p with
  | [] => .none
  | [l] => .single (start ++ l.name ++ (if l.isDir then "/" else " "))
  | ls => .several (start ++ common (ls.map (·.name))) (ls.map Listed.display)

/-- a line cut at its first space, if it has one -/
def cutAtSpace? : List Char → Option (List Char × List Char)
  | [] => Option.none
  | c :: cs => if c = ' ' then some ([], cs) else (cutAtSpace? cs).map fun (a, b) => (c :: a, b)

end Completion

/-- complete a line that is being entered in the directory `cwd` -/
def Shell.complete (shell : Shell) (cwd line : String) : Completion :=
  let line := Text.trimStart line
  if line.isEmpty then .none
  else
    match Completion.cutAtSpace? line.toList with
    | none => Completion.ofCommand shell.registry line
    | some (command, rest) =>
      let command := String.ofList command
      match OperandKind.ofCommand? command with
      | none => .none
      | some kind =>
        Completion.ofOperand shell.files cwd command kind
          (Text.trimStart (String.ofList rest))

end PageShell
