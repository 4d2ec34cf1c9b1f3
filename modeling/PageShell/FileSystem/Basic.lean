/-
The file system: a well-ordered directory tree that is never written to.

`lookup` descends from the root along the segments of a path. `listing` shows a directory, its
directories first and each group in name order: the children are in name order, and they are sorted
by kind in such a way that those of one kind keep their order.
-/
import PageShell.FileSystem.Entry
import PageShell.Path.Segments

namespace PageShell

namespace Entry

/-- the entry that a chain of names leads to -/
def descend : List String → Entry → Option Entry
  | [], e => some e
  | n :: ns, .dir children => (Keyed.find? n children).bind (descend ns)
  | _ :: _, .file _ | _ :: _, .exec _ => none

end Entry

/-- a name in a directory, and whether it names a directory -/
structure Listed where
  name : String
  isDir : Bool
  deriving DecidableEq, Repr

namespace Listed

/-- the name, with a slash behind that of a directory -/
def display (l : Listed) : String :=
  if l.isDir then l.name ++ "/" else l.name

/-- the names of a directory on one line -/
def row (listing : List Listed) : String :=
  " ".intercalate (listing.map display)

/-- the children of a directory, directories first -/
def ofChildren (children : List (String × Entry)) : List Listed :=
  let all := children.map fun p => Listed.mk p.1 p.2.isDir
  all.filter (·.isDir) ++ all.filter (!·.isDir)

/-- put a directory in front of all names, and any other name behind the directories that they begin
with -/
def place (l : Listed) : List Listed → List Listed
  | [] => [l]
  | m :: rest => if l.isDir || !m.isDir then l :: m :: rest else m :: place l rest

/-- the names sorted by kind, directories first; names of one kind stay in their order -/
def sortByKind (names : List Listed) : List Listed :=
  names.foldr place []

end Listed

/-- a file system, by the children of its root directory -/
structure FileSystem where
  root : List (String × Entry)
  wellOrdered : (Entry.dir root).WellOrdered

namespace FileSystem

/-- the file system with nothing in it -/
def empty : FileSystem :=
  ⟨[], List.Pairwise.nil, trivial⟩

/-- the file system with these entries in its root; of entries with one name the last one stays -/
def ofChildren (children : List (String × Entry)) : FileSystem where
  root := Keyed.ofList (Entry.arrangeAll children)
  wellOrdered := Entry.wellOrdered_arrange (.dir children)

instance : Inhabited FileSystem := ⟨empty⟩

instance : DecidableEq FileSystem := fun a b =>
  decidable_of_iff (a.root = b.root) ⟨fun h => by cases a; cases b; simp_all, fun h => h ▸ rfl⟩

/-- the root directory -/
def rootEntry (fs : FileSystem) : Entry :=
  .dir fs.root

/-- the entry that a path leads to from the root -/
def lookup (fs : FileSystem) (path : String) : Option Entry :=
  fs.rootEntry.descend (Path.segments path)

/-- a path leads to a directory -/
def isDirectory (fs : FileSystem) (path : String) : Bool :=
  match fs.lookup path with
  | some e => e.isDir
  | none => false

/-- the children of the directory that a path leads to, directories first -/
def listing (fs : FileSystem) (path : String) : Option (List Listed) :=
  ((fs.lookup path).bind Entry.children?).map fun children =>
    Listed.sortByKind (children.map fun p => Listed.mk p.1 p.2.isDir)

end FileSystem

/-! ## All entries with their paths -/

namespace Entry

mutual

/-- an entry and all below it, each behind the directory that holds it, with their paths -/
def walk (path : String) : Entry → List (String × Entry)
  | .dir children => (path, .dir children) :: walkAll path children
  | .file c => [(path, .file c)]
  | .exec b => [(path, .exec b)]

/-- the children of the directory at `path`, and all below them -/
def walkAll (path : String) : List (String × Entry) → List (String × Entry)
  | [] => []
  | (n, e) :: rest => walk (Path.child path n) e ++ walkAll path rest

end

end Entry

/-- all entries of a file system, each with its path -/
def FileSystem.entries (fs : FileSystem) : List (String × Entry) :=
  fs.rootEntry.walk "/"

end PageShell
