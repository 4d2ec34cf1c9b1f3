/-
Where a path leads from a working directory.

A relative path is put behind the working directory, and the whole is tidied up until nothing
changes. One pass (`tidy`) does three things from left to right, each without looking again at what
it has just produced:

* `dropParents` takes out a slash, a segment, a slash and two dots. What else stands in the segment
  that starts with the dots is glued to what stands before (`/a/b/..c` becomes `/ac`);
* `dropDots` takes out `.` segments; the segment right behind a dropped one stays for this pass;
* `dropEmpty` takes out empty segments, so that a run of slashes becomes one slash.

The first piece, before the first slash, and the last one, behind the last slash, are never `.` or
empty segments in this sense. At most `maxPasses` passes are made.
-/
import PageShell.Path.Segments

namespace PageShell.Path

open Text

/-- the most passes that are made -/
def maxPasses : Nat := 64

/-- a segment that starts with two dots -/
def startsWithParent : List Char → Bool
  | '.' :: '.' :: _ => true
  | _ => false

/-- take out each segment that a segment starting with two dots follows, and the two dots -/
def dropParents (before : List Char) : List (List Char) → Pieces
  | [] => ⟨before, []⟩
  | [a] => ⟨before, [a]⟩
  | a :: b :: rest =>
    if !a.isEmpty && startsWithParent b then dropParents (before ++ b.drop 2) rest
    else ⟨before, (dropParents a (b :: rest)).toList⟩

/-- take out the `.` segments, but not the last piece and none that follows a dropped one -/
def dropDots : List (List Char) → List (List Char)
  | [] => []
  | [a] => [a]
  | a :: b :: rest => if a = ['.'] then b :: dropDots rest else a :: dropDots (b :: rest)

/-- take out the empty segments, but not the last piece -/
def dropEmpty : List (List Char) → List (List Char)
  | [] => []
  | [a] => [a]
  | a :: b :: rest => if a.isEmpty then dropEmpty (b :: rest) else a :: dropEmpty (b :: rest)

/-- one pass -/
def tidy (p : Pieces) : Pieces :=
  let q := dropParents p.first p.rest
  ⟨q.first, dropEmpty (dropDots q.rest)⟩

/-- passes until one changes nothing, `n` at most -/
def settle : (n : Nat) → Pieces → Pieces
  | 0, p => p
  | n + 1, p => if tidy p = p then p else settle n (tidy p)

/-- a path tidied up, with a slash at its start -/
def normalize (path : List Char) : List Char :=
  match (settle maxPasses (split isSlash path)).join '/' with
  | '/' :: rest => '/' :: rest
  | relative => '/' :: relative

/-- the path that is tidied up: `path` itself if it starts with a slash, else behind `cwd` -/
def spelled (path cwd : List Char) : List Char :=
  match path with
  | '/' :: _ => path
  | _ => cwd ++ '/' :: path

/-- where `path` leads from `cwd`; no path, or an empty one, stays there -/
def resolve (path : Option String) (cwd : String) : String :=
  match path with
  | none => cwd
  | some p => if p.isEmpty then cwd else String.ofList (normalize (spelled p.toList cwd.toList))

example : resolve (some "../c") "/a/b" = "/a/c" := by decide
example : resolve (some "x/..y/z") "/a" = "/ay/z" := by decide
example : resolve (some "././/b/.") "/a" = "/a/b/." := by decide
example : resolve (some "../../..") "/a/b" = "/a" := by decide

end PageShell.Path
