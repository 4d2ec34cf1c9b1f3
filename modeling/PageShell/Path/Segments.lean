/-
The names on a path.

A path is a text. Slashes separate its segments and empty segments name nothing, so what a path
leads through is `segments`. `absolute` and `child` spell the path of an entry.
-/
import PageShell.Text.Split

namespace PageShell.Path

open Text

/-- the slash, which separates segments and is part of no name -/
def isSlash (c : Char) : Bool :=
  c == '/'

/-- the names that a path leads through -/
def segments (path : String) : List String :=
  (fields isSlash path.toList).map String.ofList

/-- the path that leads from the root through `names` -/
def absolute (names : List String) : String :=
  "/" ++ "/".intercalate names

/-- the path of the entry `name` in the directory at `parent` -/
def child (parent name : String) : String :=
  String.ofList (parent.toList.reverse.dropWhile isSlash).reverse ++ "/" ++ name

/-- a text that can stand as the name of an entry: not empty, and without a slash -/
def isName (name : String) : Bool :=
  !name.isEmpty && !name.toList.any isSlash

end PageShell.Path
