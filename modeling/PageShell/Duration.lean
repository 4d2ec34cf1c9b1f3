/-
Spans of time, in whole nanoseconds.
-/
import PageShell.Number.Double

namespace PageShell

/-- a span of time -/
structure Duration where
  nanoseconds : Nat
  deriving DecidableEq, Repr

namespace Duration

/-- nanoseconds in a second -/
def perSecond : Nat := 1000000000

/-- a span of seconds and nanoseconds -/
def ofParts (seconds nanoseconds : Nat) : Duration :=
  ⟨seconds * perSecond + nanoseconds⟩

/-- the whole seconds -/
def seconds (d : Duration) : Nat :=
  d.nanoseconds / perSecond

/-- the nanoseconds beyond the whole seconds -/
def subsecond (d : Duration) : Nat :=
  d.nanoseconds % perSecond

/-- a span of some milliseconds -/
def ofMilliseconds (n : Nat) : Duration :=
  ⟨n * 1000000⟩

/-- a measured span of milliseconds, to the nearest nanosecond; a negative one is none -/
def measured (milliseconds : Float) : Duration :=
  if milliseconds ≤ 0 then ⟨0⟩
  else ⟨Number.roundTimes (milliseconds / 1000) perSecond⟩

/-- the span in milliseconds, computed in doubles -/
def milliseconds (d : Duration) : Float :=
  (d.seconds.toFloat + d.subsecond.toFloat / 1000000000) * 1000

/-- the milliseconds with three places, as a reply to a probe shows them -/
def text (d : Duration) : String :=
  Number.thousandthsText (Number.roundTimes d.milliseconds 1000)

end Duration

end PageShell
