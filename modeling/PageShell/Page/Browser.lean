/-
The browser as the page sees it: requests, timers, a clock, the document and the address bar.

Time is in milliseconds and passes only between what the page does. The clock on the wall can jump
when a request is answered; timers do not follow it. A probe is a request with a timer beside it,
and comes to whichever is due first, at a tie to the request.
-/
import PageShell.Shell.Process

namespace PageShell

/-- how a request is answered -/
structure Answer where
  /-- how long it takes; none if it is never answered -/
  after : Option Float
  /-- why the request fails -/
  error : Option String
  /-- how far the clock on the wall jumps when the answer is there -/
  jump : Float

/-- what the page does to the browser -/
inductive Deed where
  | fetch (url : String)
  | timer (milliseconds : Nat)
  | focus
  | navigate (url : String)
  deriving DecidableEq, Repr

/-- a browser -/
structure Browser where
  /-- the time -/
  now : Float
  /-- how far the clock on the wall is ahead of the time -/
  ahead : Float
  /-- how the next requests are answered -/
  answers : List Answer
  hasWindow : Bool
  hasDocument : Bool
  /-- the address bar takes a new address -/
  canNavigate : Bool
  /-- what the page has done, in order -/
  deeds : List Deed

/-- when a process goes on, and how far the clock on the wall has jumped by then -/
structure Wake where
  due : Float
  jump : Float

namespace Browser

/-- how long a probe waits, in milliseconds -/
def timeout : Nat := 5000

/-- the longest timer, in milliseconds -/
def maxTimer : Nat := 4294967295

/-- note what the page does -/
def note (b : Browser) (d : Deed) : Browser :=
  { b with deeds := b.deeds ++ [d] }

/-- the clock on the wall -/
def wallClock (b : Browser) : Float :=
  b.now + b.ahead

/-- the time has come that a process waits for -/
def wake (b : Browser) (w : Wake) : Browser :=
  { b with now := w.due, ahead := b.ahead + w.jump }

/-! ## Requests and timers -/

/-- send a request; how it is answered -/
def fetch (b : Browser) (url : String) : Browser × Answer :=
  ({ b.note (.fetch url) with answers := b.answers.tail },
    b.answers.head?.getD ⟨some 20, none, 0⟩)

/-- start a timer; when it is due -/
def startTimer (b : Browser) (milliseconds : Nat) : Browser × Float :=
  (b.note (.timer milliseconds), b.now + milliseconds.toFloat)

/-- the reply that an answer stands for, which comes when the clock on the wall is at `arrival` -/
def reply (b : Browser) (answer : Answer) (arrival : Float) : Reply :=
  match answer.error with
  | some reason => .error (.network reason)
  | none => .ok (.measured (arrival - b.wallClock))

/-- send a probe; when it is over, and what came of it -/
def probe (b : Browser) (address : String) : Browser × Wake × Reply :=
  let (b, answer) := b.fetch ("https://" ++ address)
  let (b, limit) := b.startTimer timeout
  match answer.after with
  | none => (b, ⟨limit, 0⟩, .error .timeout)
  | some after =>
    let due := b.now + after
    if due ≤ limit then
      let w : Wake := ⟨due, answer.jump⟩
      (b, w, b.reply answer (b.wake w).wallClock)
    else (b, ⟨limit, 0⟩, .error .timeout)

/-- sleep; when it is over -/
def sleep (b : Browser) (milliseconds : Nat) : Browser × Wake :=
  let (b, due) := b.startTimer (min milliseconds maxTimer)
  (b, ⟨due, 0⟩)

/-! ## The document and the address bar -/

/-- give the focus to the field, if there is one; whether that worked -/
def focus (b : Browser) (hasField : Bool) : Browser × Bool :=
  if b.hasWindow && b.hasDocument && hasField then (b.note .focus, true) else (b, false)

/-- open a page in place of this one -/
def navigate (b : Browser) (url : String) : Browser :=
  if b.hasWindow && b.canNavigate then b.note (.navigate url) else b

end Browser

end PageShell
