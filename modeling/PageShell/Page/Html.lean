/-
Markup as a tree, and how it is written.

Text and attribute values are escaped when they are written, so only `raw` can bring markup of its
own into a page. An empty text is written as one space.
-/

namespace PageShell

/-- a piece of a page -/
inductive Html where
  | text (s : String)
  /-- markup that is written as it is -/
  | raw (markup : String)
  | element (tag : String) (attributes : List (String × String)) (children : List Html)
  /-- an element that cannot hold anything -/
  | void (tag : String) (attributes : List (String × String))

namespace Html

/-- how a character of a text is written -/
def escapeChar (c : Char) : List Char :=
  match c with
  | '&' => "&amp;".toList
  | '<' => "&lt;".toList
  | '>' => "&gt;".toList
  | c => [c]

/-- how a character of an attribute value is written -/
def escapeQuotedChar (c : Char) : List Char :=
  match c with
  | '"' => "&quot;".toList
  | c => escapeChar c

/-- how a text is written -/
def escape (s : String) : String :=
  if s.isEmpty then " " else String.ofList (s.toList.flatMap escapeChar)

/-- how an attribute value is written -/
def escapeQuoted (s : String) : String :=
  String.ofList (s.toList.flatMap escapeQuotedChar)

/-- how the opening tag of an element is written -/
def openTag (tag : String) (attributes : List (String × String)) : String :=
  "<" ++ tag
    ++ String.join (attributes.map fun a => " " ++ a.1 ++ "=\"" ++ escapeQuoted a.2 ++ "\"")
    ++ ">"

mutual

/-- how a piece of a page is written -/
def render : Html → String
  | .text s => escape s
  | .raw markup => markup
  | .element tag attributes children =>
    openTag tag attributes ++ renderAll children ++ "</" ++ tag ++ ">"
  | .void tag attributes => openTag tag attributes

/-- how pieces of a page are written one after another -/
def renderAll : List Html → String
  | [] => ""
  | h :: rest => render h ++ renderAll rest

end

/-- a block of a class -/
def div (name : String) (children : List Html) : Html :=
  .element "div" [("class", name)] children

/-- a text of a class -/
def span (name text : String) : Html :=
  .element "span" [("class", name)] [.text text]

end Html

end PageShell
