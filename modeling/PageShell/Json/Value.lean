/-
JSON values.

An object keeps its members as they are written, also those with one name. The value of a number is
not kept: the documents read here hold none that matters.
-/

namespace PageShell.Json

/-- a value of a document -/
inductive Value where
  | null
  | bool (b : Bool)
  | number
  | string (s : String)
  | array (items : List Value)
  | object (members : List (String × Value))
  deriving Repr

end PageShell.Json
