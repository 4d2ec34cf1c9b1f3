/-
Reading a JSON number one character at a time.

`step` follows the grammar: a minus sign, whole digits without a leading zero, a point with digits,
an exponent. Along the way it keeps a significand below 2^64 and a power of ten, as much as is
needed to say whether the number lies beyond the doubles (`tooLarge`). Digits that do not fit into
the significand are not read exactly: in the whole part they count as a power of ten, behind the
point they are skipped.
-/
import PageShell.Number.Rounding

namespace PageShell.Json

open Number

/-- how far a number has been read -/
inductive NumeralStage where
  | sign
  | zero
  | whole
  | point
  | fraction
  | exponentMark
  | exponentSign
  | exponent
  deriving DecidableEq, Repr

/-- a number read in part -/
structure Numeral where
  stage : NumeralStage
  /-- the digits read so far, as far as they fit -/
  significand : Nat
  /-- the power of ten that the digits read so far amount to -/
  scale : Int
  /-- a digit of the present part did not fit any more -/
  full : Bool
  /-- the exponent is negative -/
  negativeExponent : Bool
  /-- the digits of the exponent -/
  exponent : Nat
  deriving DecidableEq, Repr

/-- what a character does to a number that is being read -/
inductive NumeralStep where
  | more (n : Numeral)
  | ended
  | malformed

namespace Numeral

/-- the largest significand -/
def maxSignificand : Nat := pow2 64 - 1

/-- the value of a decimal digit -/
def digit? (c : Char) : Option Nat :=
  if c.isDigit then some (c.toNat - 48) else none

/-- a number that starts with `c`, a minus sign or a digit -/
def start? (c : Char) : Option Numeral :=
  if c = '-' then some ⟨.sign, 0, 0, false, false, 0⟩
  else match digit? c with
    | some 0 => some ⟨.zero, 0, 0, false, false, 0⟩
    | some d => some ⟨.whole, d, 0, false, false, 0⟩
    | none => none

/-- a further digit of the whole part -/
def pushWhole (n : Numeral) (d : Nat) : Numeral :=
  let s := n.significand * 10 + d
  if !n.full && s ≤ maxSignificand then { n with significand := s }
  else { n with scale := n.scale + 1, full := true }

/-- a further digit behind the point -/
def pushFraction (n : Numeral) (d : Nat) : Numeral :=
  let s := n.significand * 10 + d
  if n.full then n
  else if s ≤ maxSignificand then { n with significand := s, scale := n.scale - 1 }
  else { n with full := true }

/-- a further digit of the exponent -/
def pushExponent (n : Numeral) (d : Nat) : Numeral :=
  { n with exponent := n.exponent * 10 + d }

/-- what may follow a finished whole part -/
def afterWhole (n : Numeral) (c : Char) : NumeralStep :=
  if c = '.' then .more { n with stage := .point, full := false }
  else if c = 'e' ∨ c = 'E' then .more { n with stage := .exponentMark }
  else .ended

/-- one character -/
def step (n : Numeral) (c : Char) : NumeralStep :=
  match n.stage, digit? c with
  | .sign, some 0 => .more { n with stage := .zero }
  | .sign, some d => .more { n with stage := .whole, significand := d }
  | .sign, none => .malformed
  | .zero, some _ => .malformed
  | .zero, none => n.afterWhole c
  | .whole, some d => .more (n.pushWhole d)
  | .whole, none => n.afterWhole c
  | .point, some d => .more { n.pushFraction d with stage := .fraction }
  | .point, none => .malformed
  | .fraction, some d => .more (n.pushFraction d)
  | .fraction, none =>
    if c = 'e' ∨ c = 'E' then .more { n with stage := .exponentMark } else .ended
  | .exponentMark, some d => .more { n.pushExponent d with stage := .exponent }
  | .exponentMark, none =>
    if c = '+' then .more { n with stage := .exponentSign }
    else if c = '-' then .more { n with stage := .exponentSign, negativeExponent := true }
    else .malformed
  | .exponentSign, some d => .more { n.pushExponent d with stage := .exponent }
  | .exponentSign, none => .malformed
  | .exponent, some d => .more (n.pushExponent d)
  | .exponent, none => .ended

/-- the number may end here -/
def isComplete (n : Numeral) : Bool :=
  match n.stage with
  | .zero | .whole | .fraction | .exponent => true
  | .sign | .point | .exponentMark | .exponentSign => false

/-- the power of ten that the significand is multiplied by -/
def power (n : Numeral) : Int :=
  if n.negativeExponent then n.scale - n.exponent else n.scale + n.exponent

/-- the nearest whole number of 53 significant binary digits -/
def toDouble (n : Nat) : Nat :=
  if n < pow2 53 then n
  else
    let unit := pow2 (n.log2 - 52)
    roundDiv n unit * unit

/--
beyond the doubles: the power of ten is larger than 308, or significand and power, each rounded to
a double, have a product that rounds to 2^1024 or more. Zero is never too large.
-/
def tooLarge (n : Numeral) : Bool :=
  n.significand != 0 &&
    (decide (308 < n.power) ||
      (decide (0 ≤ n.power) &&
        decide (pow2 1024 - pow2 970 ≤ toDouble n.significand * toDouble (pow10 n.power.toNat))))

end Numeral

end PageShell.Json
