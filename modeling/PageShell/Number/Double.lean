/-
The exact value of a double.

A finite double that is not negative is `m * 2 ^ q` for whole numbers `m` and `q`. Multiples of it
are rounded here in exact arithmetic, a half to the even neighbour.
-/
import PageShell.Number.Rounding

namespace PageShell.Number

/-- whole numbers `m` and `q` such that a finite double is `m * 2 ^ q`, its sign apart -/
def binary (x : Float) : Nat × Int :=
  let bits := x.toBits.toNat
  let exponent : Nat := bits / pow2 52 % pow2 11
  let fraction := bits % pow2 52
  if exponent = 0 then (fraction, -1074) else (fraction + pow2 52, (exponent : Int) - 1075)

/-- the number `m * 2 ^ q`, rounded to a whole number -/
def roundBinary (m : Nat) (q : Int) : Nat :=
  if 0 ≤ q then m * pow2 q.toNat else roundDiv m (pow2 (-q).toNat)

/-- a multiple of a finite double that is not negative, rounded to a whole number -/
def roundTimes (x : Float) (factor : Nat) : Nat :=
  let (m, q) := binary x
  roundBinary (m * factor) q

/-- a whole number of thousandths, with a point and three places behind it -/
def thousandthsText (n : Nat) : String :=
  let places := toString (n % 1000)
  toString (n / 1000) ++ "." ++ String.ofList (List.replicate (3 - places.length) '0') ++ places

example : thousandthsText 20000 = "20.000" ∧ thousandthsText 7 = "0.007" := by decide

end PageShell.Number
