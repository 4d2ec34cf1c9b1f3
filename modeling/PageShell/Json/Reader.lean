/-
Reading a JSON document.

The reader is a machine that takes one character at a time. `Mode` says what it is in the middle of,
and the stack holds what is left to finish: the arrays and objects around the present value. A
document is refused as malformed at the first character that no document goes on with, and as
truncated if the text ends before the document does. At most `maxDepth` arrays and objects may be
open at once.

What follows the value is not looked into: a document only says whether anything but blanks does.
-/
import PageShell.Json.Value
import PageShell.Json.Numeral
import PageShell.Json.StringLiteral

namespace PageShell.Json

/-- why a text is no document -/
inductive Fault where
  | truncated
  | malformed
  deriving DecidableEq, Repr

/-- the value of a document, and whether anything but blanks follows it -/
structure Document where
  value : Value
  trailing : Bool
  deriving Repr

/-- the most arrays and objects that may be open at once -/
def maxDepth : Nat := 127

/-- an array or object that waits for one of its values; what it holds so far, the last one first -/
inductive Frame where
  | element (items : List Value)
  | member (members : List (String × Value)) (key : String)

/-- what the reader is in the middle of -/
inductive Mode where
  /-- before a value -/
  | value
  /-- behind an opening bracket -/
  | firstElement
  /-- behind a value in an array -/
  | afterElement (items : List Value)
  /-- behind an opening brace -/
  | firstMember
  /-- behind a comma in an object -/
  | nextMember (members : List (String × Value))
  /-- in the name of a member -/
  | key (members : List (String × Value)) (s : StringLiteral)
  /-- behind the name of a member -/
  | colon (members : List (String × Value)) (key : String)
  /-- behind a value in an object -/
  | afterMember (members : List (String × Value))
  /-- in one of the words `true`, `false`, `null`, with these characters to come -/
  | word (rest : List Char) (v : Value)
  /-- in a number -/
  | numeral (n : Numeral)
  /-- in a string -/
  | string (s : StringLiteral)
  /-- behind the value of the document -/
  | done (d : Document)

/-- the reader between two characters -/
structure Reader where
  stack : List Frame
  mode : Mode

/-- the blanks of the JSON grammar -/
def isBlank (c : Char) : Bool :=
  c == ' ' || c == '\t' || c == '\n' || c == '\r'

namespace Reader

/-- before a document -/
def start : Reader :=
  ⟨[], .value⟩

/-- behind the value `v`, which the top of the stack has waited for -/
def finish (v : Value) : List Frame → Reader
  | [] => ⟨[], .done ⟨v, false⟩⟩
  | .element items :: stack => ⟨stack, .afterElement (v :: items)⟩
  | .member members key :: stack => ⟨stack, .afterMember ((key, v) :: members)⟩

/-- the first character of a value -/
def begin? (stack : List Frame) (c : Char) : Option Reader :=
  if c = '"' then some ⟨stack, .string .start⟩
  else if c = '[' then if stack.length < maxDepth then some ⟨stack, .firstElement⟩ else none
  else if c = '\x7b' then if stack.length < maxDepth then some ⟨stack, .firstMember⟩ else none
  else if c = 't' then some ⟨stack, .word ['r', 'u', 'e'] (.bool true)⟩
  else if c = 'f' then some ⟨stack, .word ['a', 'l', 's', 'e'] (.bool false)⟩
  else if c = 'n' then some ⟨stack, .word ['u', 'l', 'l'] .null⟩
  else (Numeral.start? c).map fun n => ⟨stack, .numeral n⟩

/-- a character behind a finished value -/
def stepAfter (r : Reader) (c : Char) : Option Reader :=
  match r.mode with
  | .afterElement items =>
    if isBlank c then some r
    else if c = ',' then some ⟨.element items :: r.stack, .value⟩
    else if c = ']' then some (finish (.array items.reverse) r.stack)
    else none
  | .afterMember members =>
    if isBlank c then some r
    else if c = ',' then some ⟨r.stack, .nextMember members⟩
    else if c = '\x7d' then some (finish (.object members.reverse) r.stack)
    else none
  | .done d => some (if isBlank c then r else ⟨r.stack, .done { d with trailing := true }⟩)
  | _ => none

/-- one character; none if no document goes on with it -/
def step (r : Reader) (c : Char) : Option Reader :=
  match r.mode with
  | .value => if isBlank c then some r else begin? r.stack c
  | .firstElement =>
    if isBlank c then some r
    else if c = ']' then some (finish (.array []) r.stack)
    else begin? (.element [] :: r.stack) c
  | .firstMember =>
    if isBlank c then some r
    else if c = '\x7d' then some (finish (.object []) r.stack)
    else if c = '"' then some ⟨r.stack, .key [] .start⟩
    else none
  | .nextMember members =>
    if isBlank c then some r
    else if c = '"' then some ⟨r.stack, .key members .start⟩
    else none
  | .key members s =>
    match s.step c with
    | .more s => some ⟨r.stack, .key members s⟩
    | .closed key => some ⟨r.stack, .colon members key⟩
    | .malformed => none
  | .colon members key =>
    if isBlank c then some r
    else if c = ':' then some ⟨.member members key :: r.stack, .value⟩
    else none
  | .word rest v =>
    match rest with
    | [] => none
    | [d] => if c = d then some (finish v r.stack) else none
    | d :: rest => if c = d then some ⟨r.stack, .word rest v⟩ else none
  | .numeral n =>
    match n.step c with
    | .more n => some ⟨r.stack, .numeral n⟩
    | .ended => if n.tooLarge then none else (finish .number r.stack).stepAfter c
    | .malformed => none
  | .string s =>
    match s.step c with
    | .more s => some ⟨r.stack, .string s⟩
    | .closed s => some (finish (.string s) r.stack)
    | .malformed => none
  | .afterElement _ | .afterMember _ | .done _ => r.stepAfter c

/-- the document of a reader whose text is at its end -/
def result (r : Reader) : Except Fault Document :=
  match r.mode, r.stack with
  | .done d, _ => .ok d
  | .numeral n, stack =>
    if !n.isComplete then .error .truncated
    else if n.tooLarge then .error .malformed
    else if stack.isEmpty then .ok ⟨.number, false⟩
    else .error .truncated
  | _, _ => .error .truncated

end Reader

/-- the document that a text starts with -/
def read (text : String) : Except Fault Document :=
  match text.toList.foldlM Reader.step Reader.start with
  | none => .error .malformed
  | some r => r.result

end PageShell.Json
