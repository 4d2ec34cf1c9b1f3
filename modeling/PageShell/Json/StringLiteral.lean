/-
Reading a JSON string one character at a time, from behind its opening quote.

A string ends at a plain quote, holds no control character below U+0020, and may hold the escapes
of the JSON grammar. An escape of four hexadecimal digits stands for a UTF-16 unit: a high surrogate
has to be followed by the escape of a low one, and the two stand for one character. The four
places behind backslash and `u` are four bytes of the text; only when they are all there it is
asked whether they are digits.
-/

namespace PageShell.Json

/-- what is being read inside a string -/
inductive StringStage where
  /-- a character or a backslash -/
  | plain
  /-- the letter behind a backslash -/
  | escape
  /-- the four places of an escape; `high` is the high surrogate before it -/
  | hex (high : Option Nat) (seen : List Char)
  /-- the backslash behind a high surrogate -/
  | pairBackslash (high : Nat)
  /-- the `u` behind that backslash -/
  | pairLetter (high : Nat)
  deriving DecidableEq, Repr

/-- a string read in part; `chars` holds its characters, the last one first -/
structure StringLiteral where
  stage : StringStage
  chars : List Char
  deriving DecidableEq, Repr

/-- what a character does to a string that is being read -/
inductive StringStep where
  | more (s : StringLiteral)
  | closed (s : String)
  | malformed

namespace StringLiteral

/-- the string behind its opening quote -/
def start : StringLiteral :=
  ⟨.plain, []⟩

/-- the value of a hexadecimal digit -/
def hexDigit? (c : Char) : Option Nat :=
  if '0' ≤ c ∧ c ≤ '9' then some (c.toNat - 48)
  else if 'a' ≤ c ∧ c ≤ 'f' then some (c.toNat - 87)
  else if 'A' ≤ c ∧ c ≤ 'F' then some (c.toNat - 55)
  else none

/-- the value of four hexadecimal digits -/
def hexValue? : List Char → Option Nat
  | [a, b, c, d] => do
    let a ← hexDigit? a
    let b ← hexDigit? b
    let c ← hexDigit? c
    let d ← hexDigit? d
    some (((a * 16 + b) * 16 + c) * 16 + d)
  | _ => none

/-- the length of a text in bytes -/
def byteLength (s : List Char) : Nat :=
  s.foldr (fun c n => c.utf8Size + n) 0

/-- the character behind a backslash that stands for one character -/
def escaped? (c : Char) : Option Char :=
  match c with
  | '"' => some '"'
  | '\\' => some '\\'
  | '/' => some '/'
  | 'b' => some '\x08'
  | 'f' => some '\x0c'
  | 'n' => some '\n'
  | 'r' => some '\r'
  | 't' => some '\t'
  | _ => none

/-- one more character of the string -/
def push (s : StringLiteral) (c : Char) : StringLiteral :=
  ⟨.plain, c :: s.chars⟩

/-- a UTF-16 unit that stands behind no high surrogate -/
def pushUnit (s : StringLiteral) (unit : Nat) : StringStep :=
  if 0xDC00 ≤ unit ∧ unit ≤ 0xDFFF then .malformed
  else if 0xD800 ≤ unit ∧ unit ≤ 0xDBFF then .more { s with stage := .pairBackslash unit }
  else .more (s.push (Char.ofNat unit))

/-- a UTF-16 unit that stands behind the high surrogate `high` -/
def pushPair (s : StringLiteral) (high unit : Nat) : StringStep :=
  if 0xDC00 ≤ unit ∧ unit ≤ 0xDFFF then
    .more (s.push (Char.ofNat (0x10000 + (high - 0xD800) * 0x400 + (unit - 0xDC00))))
  else .malformed

/-- one character -/
def step (s : StringLiteral) (c : Char) : StringStep :=
  match s.stage with
  | .plain =>
    if c = '"' then .closed (String.ofList s.chars.reverse)
    else if c = '\\' then .more { s with stage := .escape }
    else if c.toNat < 0x20 then .malformed
    else .more (s.push c)
  | .escape =>
    if c = 'u' then .more { s with stage := .hex none [] }
    else match escaped? c with
      | some d => .more (s.push d)
      | none => .malformed
  | .hex high seen =>
    let seen := seen ++ [c]
    if byteLength seen < 4 then .more { s with stage := .hex high seen }
    else match hexValue? seen, high with
      | some unit, none => s.pushUnit unit
      | some unit, some h => s.pushPair h unit
      | none, _ => .malformed
  | .pairBackslash high =>
    if c = '\\' then .more { s with stage := .pairLetter high } else .malformed
  | .pairLetter high =>
    if c = 'u' then .more { s with stage := .hex (some high) [] } else .malformed

end StringLiteral

end PageShell.Json
