/-
Base64 with padding.

Three bytes are written as four symbols. `encode` writes; `decode` reads and accepts only what
`encode` writes: every symbol in the alphabet, padding to a multiple of four, and no bit set that
belongs to no byte. A refusal says what is wrong first, and where.

Texts are lists of bytes here, since a refusal counts bytes.
-/

namespace PageShell.Base64

/-- why a text is refused -/
inductive Fault where
  | badSymbol (byte : UInt8) (offset : Nat)
  | badLength (length : Nat)
  | badPadding
  | badLastSymbol (byte : UInt8) (offset : Nat)
  deriving DecidableEq, Repr

/-- the wording of a refusal -/
def Fault.message : Fault → String
  | .badSymbol byte offset =>
    "Invalid symbol " ++ toString byte.toNat ++ ", offset " ++ toString offset ++ "."
  | .badLength length => "Invalid input length: " ++ toString length
  | .badPadding => "Invalid padding"
  | .badLastSymbol byte offset =>
    "Invalid last symbol " ++ toString byte.toNat ++ ", offset " ++ toString offset ++ "."

/-! ## The alphabet -/

/-- the padding byte, an equals sign -/
def pad : UInt8 := 61

/-- the number that a symbol stands for -/
def value? (b : UInt8) : Option Nat :=
  let n := b.toNat
  if 65 ≤ n ∧ n ≤ 90 then some (n - 65)
  else if 97 ≤ n ∧ n ≤ 122 then some (n - 71)
  else if 48 ≤ n ∧ n ≤ 57 then some (n + 4)
  else if n = 43 then some 62
  else if n = 47 then some 63
  else none

/-- the symbol of a number below 64 -/
def symbol (n : Nat) : UInt8 :=
  UInt8.ofNat
    (if n < 26 then n + 65
     else if n < 52 then n + 71
     else if n < 62 then n - 4
     else if n = 62 then 43
     else 47)

/-- each symbol stands for its number -/
theorem value?_symbol : ∀ n < 64, value? (symbol n) = some n := by
  decide

/-! ## Writing -/

/-- the symbols of some bytes, padded to a multiple of four -/
def encode : List UInt8 → List UInt8
  | [] => []
  | [a] => [symbol (a.toNat / 4), symbol (a.toNat % 4 * 16), pad, pad]
  | [a, b] =>
    [symbol (a.toNat / 4), symbol (a.toNat % 4 * 16 + b.toNat / 16),
      symbol (b.toNat % 16 * 4), pad]
  | a :: b :: c :: rest =>
    symbol (a.toNat / 4) :: symbol (a.toNat % 4 * 16 + b.toNat / 16)
      :: symbol (b.toNat % 16 * 4 + c.toNat / 64) :: symbol (c.toNat % 64) :: encode rest

/-! ## Reading -/

/-- the number of a symbol that stands at `offset` -/
def valueAt (offset : Nat) (b : UInt8) : Except Fault Nat :=
  match value? b with
  | some n => .ok n
  | none => .error (.badSymbol b offset)

/-- the three bytes of four symbols -/
def joinFour (p q r s : Nat) : List UInt8 :=
  [UInt8.ofNat (p * 4 + q / 16), UInt8.ofNat (q % 16 * 16 + r / 4), UInt8.ofNat (r % 4 * 64 + s)]

/--
the symbols of the last group: `values` are the numbers read so far and `firstPad` is where
padding has begun. Padding cannot begin before the third place, and no symbol follows it.
-/
def lastValues (offset : Nat) (values : List Nat) (firstPad : Option Nat) :
    List UInt8 → Except Fault (List Nat)
  | [] => .ok values
  | b :: rest =>
    if b = pad then
      if values.length < 2 then .error (.badSymbol b offset)
      else lastValues (offset + 1) values (some (firstPad.getD offset)) rest
    else
      match firstPad with
      | some start => .error (.badSymbol pad start)
      | none => do
        let n ← valueAt offset b
        lastValues (offset + 1) (values ++ [n]) none rest

/-- the bytes of the last group, which starts at `offset` and has at most four places -/
def decodeLast (offset : Nat) (group : List UInt8) : Except Fault (List UInt8) := do
  let values ← lastValues offset [] none group
  match values with
  | [p, q, r, s] => .ok (joinFour p q r s)
  | [p, q, r] =>
    if group.length ≠ 4 then .error .badPadding
    else if r % 4 ≠ 0 then .error (.badLastSymbol (symbol r) (offset + 2))
    else .ok [UInt8.ofNat (p * 4 + q / 16), UInt8.ofNat (q % 16 * 16 + r / 4)]
  | [p, q] =>
    if group.length ≠ 4 then .error .badPadding
    else if q % 16 ≠ 0 then .error (.badLastSymbol (symbol q) (offset + 1))
    else .ok [UInt8.ofNat (p * 4 + q / 16)]
  | _ => if group.isEmpty then .ok [] else .error (.badLength (offset + values.length))

/-- the bytes of the groups from `offset` on; only the last group may be padded -/
def decodeGroups (offset : Nat) : List UInt8 → Except Fault (List UInt8)
  | a :: b :: c :: d :: e :: rest => do
    let p ← valueAt offset a
    let q ← valueAt (offset + 1) b
    let r ← valueAt (offset + 2) c
    let s ← valueAt (offset + 3) d
    let bytes ← decodeGroups (offset + 4) (e :: rest)
    .ok (joinFour p q r s ++ bytes)
  | group => decodeLast offset group

/-- a stray last byte, one that makes the length one more than a multiple of four -/
def strayByte? (text : List UInt8) : Option UInt8 :=
  match text.getLast? with
  | some b => if text.length % 4 = 1 ∧ b ≠ pad ∧ value? b = none then some b else none
  | none => none

/-- the bytes that a text stands for -/
def decode (text : List UInt8) : Except Fault (List UInt8) :=
  match strayByte? text with
  | some b => .error (.badSymbol b (text.length - 1))
  | none => decodeGroups 0 text

example : decode (encode [0, 255, 16, 7]) = .ok [0, 255, 16, 7] := rfl

end PageShell.Base64
