/-
Drawing a directory as a tree, one line for each entry below it.

A line is an indentation, a branch and a name. The branch says whether the entry is the last of its
directory, and each column of the indentation says the same of a directory above it.
-/
import PageShell.FileSystem.Entry

namespace PageShell.Tree

/-- the branch in front of a name -/
def branch (last : Bool) : String :=
  if last then "└──" else "├──"

/-- the column below a branch -/
def column (last : Bool) : String :=
  if last then "    " else "│   "

mutual

/-- the lines below an entry -/
def drawBelow (indent : String) : Entry → List String
  | .dir children => drawAll indent children
  | .file _ | .exec _ => []

/-- the lines of the children of a directory -/
def drawAll (indent : String) : List (String × Entry) → List String
  | [] => []
  | (name, e) :: rest =>
    (indent ++ branch rest.isEmpty ++ " " ++ name)
      :: (drawBelow (indent ++ column rest.isEmpty) e ++ drawAll indent rest)

end

/-- the lines of the children of a directory, without indentation -/
def draw (children : List (String × Entry)) : List String :=
  drawAll "" children

example :
    draw [("a", .dir [("x", .text ""), ("y", .dir [])]), ("b", .text "")]
      = ["├── a", "│   ├── x", "│   └── y", "└── b"] := by decide

end PageShell.Tree
