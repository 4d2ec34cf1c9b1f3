/-
A session: the working directory and the environment.

The environment keeps its variables in name order, and `PATH` is always set, for a session that
starts without it gets a default. `expand` puts the values of variables into a text.
-/
import PageShell.Keyed
import PageShell.Text.Split

namespace PageShell

/-- variables with their values, in name order -/
structure Environment where
  vars : List (String × String)
  ordered : Keyed.Ordered vars

namespace Environment

instance : DecidableEq Environment := fun a b =>
  decidable_of_iff (a.vars = b.vars) ⟨fun h => by cases a; cases b; simp_all, fun h => h ▸ rfl⟩

/-- the variables given; of two values for one name the later one stays -/
def ofList (vars : List (String × String)) : Environment :=
  ⟨Keyed.ofList vars, Keyed.ordered_ofList vars⟩

/-- the value of a variable -/
def get? (env : Environment) (key : String) : Option String :=
  Keyed.find? key env.vars

/-- set a variable -/
def set (env : Environment) (key value : String) : Environment :=
  ⟨Keyed.insert key value env.vars, Keyed.ordered_insert env.ordered⟩

/-! ## References in a text -/

/-- the characters of a name that a text can refer to -/
def isNameChar (c : Char) : Bool :=
  ('A' ≤ c && c ≤ 'Z') || c == '_'

/-- what stands for the part of a text behind a dollar sign, up to the next dollar sign -/
def expandPiece (env : Environment) (piece : List Char) : List Char :=
  match piece.takeWhile isNameChar with
  | [] => '$' :: piece
  | name => ((env.get? (String.ofList name)).getD "").toList ++ piece.dropWhile isNameChar

/-- the characters of a text, each reference replaced -/
def expandChars (env : Environment) (text : List Char) : List Char :=
  let pieces := Text.split (· == '$') text
  pieces.first ++ pieces.rest.flatMap env.expandPiece

/--
a text with the value of the variable in place of each dollar sign and the name behind it. A name
is as long as it can be; one that is not set stands for nothing. Values are not looked into.
-/
def expand (env : Environment) (text : String) : String :=
  String.ofList (env.expandChars text.toList)

example : (ofList [("A", "$B"), ("AB", "x")]).expand "$A$AB-$C$1" = "$Bx-$1" := by decide

end Environment

/-- the state that commands see and `cd` changes -/
structure Session where
  cwd : String
  env : Environment
  deriving DecidableEq

namespace Session

/-- the search path of a session that starts without one -/
def defaultPath : String := "/bin:/usr/bin"

/-- the variable that holds the search path -/
def pathKey : String := "PATH"

/-- a session in the directory `cwd` with these variables -/
def start (cwd : String) (vars : List (String × String)) : Session :=
  let env := Environment.ofList vars
  ⟨cwd, if (env.get? pathKey).isSome then env else env.set pathKey defaultPath⟩

/-- the directories of the search path, in order; an empty search path has one empty entry -/
def searchPath (s : Session) : List String :=
  ((Text.split (· == ':') ((s.env.get? pathKey).getD "").toList).toList).map String.ofList

end Session

end PageShell
