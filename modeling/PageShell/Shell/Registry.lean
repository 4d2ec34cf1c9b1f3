/-
The registry: the names that run a command without a search, in the order in which they are listed.

A name is registered at most once; of several entries with one name the first one counts.
-/
import PageShell.Builtin

namespace PageShell

/-- a name, the command that it runs, and what is said about it -/
structure RegistryEntry where
  name : String
  builtin : Builtin
  description : String
  deriving DecidableEq, Repr

namespace RegistryEntry

/-- a command under its own name -/
def ofBuiltin (b : Builtin) : RegistryEntry :=
  ⟨b.name, b, b.description⟩

end RegistryEntry

/-- the registered entries -/
structure Registry where
  entries : List RegistryEntry
  deriving DecidableEq, Repr

namespace Registry

/-- add an entry behind the others, unless its name is registered -/
def register (entries : List RegistryEntry) (e : RegistryEntry) : List RegistryEntry :=
  if entries.any (·.name == e.name) then entries else entries ++ [e]

/-- register entries one after another -/
def ofList (entries : List RegistryEntry) : Registry :=
  ⟨entries.foldl register []⟩

/-- every command under its own name -/
def standard : Registry :=
  ofList (Builtin.all.map .ofBuiltin)

/-- the entry of a name -/
def get? (r : Registry) (name : String) : Option RegistryEntry :=
  r.entries.find? (·.name == name)

/-- the registered names -/
def names (r : Registry) : List String :=
  r.entries.map (·.name)

end Registry

end PageShell
