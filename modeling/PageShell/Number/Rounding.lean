/-
Rounding a quotient to the nearest whole number, a half to the even neighbour.
-/

namespace PageShell.Number

/-- a power of two -/
def pow2 (k : Nat) : Nat :=
  Nat.pow 2 k

/-- a power of ten -/
def pow10 (k : Nat) : Nat :=
  Nat.pow 10 k

/-- the quotient of `num` and `den`, rounded to the nearest whole number, a half to the even one -/
def roundDiv (num den : Nat) : Nat :=
  let q := num / den
  let twice := 2 * (num % den)
  if twice < den then q
  else if den < twice then q + 1
  else if q % 2 = 0 then q
  else q + 1

end PageShell.Number
