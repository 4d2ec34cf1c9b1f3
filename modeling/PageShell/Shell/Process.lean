/-
Processes: what a command does while it runs, as data.

A process writes, sends a probe and waits for the reply, sleeps, and in the end has a result. What
happens between its steps is up to whoever runs it: `run` gives it a network that answers at once,
and the page gives it requests, timers and a clock. Both see the same process.
-/
import PageShell.Duration
import PageShell.Output.Line
import PageShell.Shell.Error

namespace PageShell

/-- what comes of a probe: the time to the reply, or none -/
abbrev Reply := Except ProbeError Duration

/-- a command that has begun -/
inductive Process (α : Type) where
  | done (result : α)
  | write (w : Write) (next : Process α)
  | probe (address : String) (next : Reply → Process α)
  | sleep (milliseconds : Nat) (next : Process α)

/-- what a process has used the network and the clock for -/
inductive Call where
  | probe (address : String)
  | sleep (milliseconds : Nat)
  deriving DecidableEq, Repr

/-- a network: its reply to each probe, counted from zero -/
abbrev Network := Nat → Reply

namespace Network

/-- the network as it is after one probe -/
def next (net : Network) : Network :=
  fun n => net (n + 1)

/-- these replies in turn, and then a reply after 20 ms to every probe -/
def ofReplies (replies : List Reply) : Network :=
  fun n => replies.getD n (.ok (.ofMilliseconds 20))

end Network

/-- a process that has run: what it wrote, what it called, and its result -/
structure Run (α : Type) where
  writes : List Write
  calls : List Call
  result : α
  deriving Repr

namespace Process

variable {α β : Type}

/-- go on with `f` when a process is done -/
def andThen (f : α → Process β) : Process α → Process β
  | .done a => f a
  | .write w next => .write w (andThen f next)
  | .probe address next => .probe address fun r => andThen f (next r)
  | .sleep ms next => .sleep ms (andThen f next)

/-- write several things, then go on -/
def writeAll (writes : List Write) (next : Process α) : Process α :=
  writes.foldr .write next

/-- run a process on a network -/
def run (net : Network) : Process α → Run α
  | .done a => ⟨[], [], a⟩
  | .write w next =>
    let r := run net next
    { r with writes := w :: r.writes }
  | .probe address next =>
    let r := run net.next (next (net 0))
    { r with calls := .probe address :: r.calls }
  | .sleep ms next =>
    let r := run net next
    { r with calls := .sleep ms :: r.calls }

/-! ## Running a process that goes on -/

/-- the writes come first -/
theorem run_writeAll (net : Network) (writes : List Write) (next : Process α) :
    (writeAll writes next).run net =
      { next.run net with writes := writes ++ (next.run net).writes } := by
  induction writes with
  | nil => rfl
  | cons w rest ih =>
    change (let r := (writeAll rest next).run net; { r with writes := w :: r.writes }) = _
    rw [ih]
    rfl

/-- a process that goes on runs like the first part, and then like the rest on what is left of the
network -/
theorem run_andThen (f : α → Process β) (p : Process α) (net : Network) :
    ∃ rest : Network, (andThen f p).run net =
      let r := p.run net
      let s := (f r.result).run rest
      ⟨r.writes ++ s.writes, r.calls ++ s.calls, s.result⟩ := by
  induction p generalizing net with
  | done a => exact ⟨net, rfl⟩
  | write w next ih =>
    obtain ⟨rest, h⟩ := ih net
    exact ⟨rest, by simp [andThen, run, h]⟩
  | probe address next ih =>
    obtain ⟨rest, h⟩ := ih (net 0) net.next
    exact ⟨rest, by simp [andThen, run, h]⟩
  | sleep ms next ih =>
    obtain ⟨rest, h⟩ := ih net
    exact ⟨rest, by simp [andThen, run, h]⟩

end Process

end PageShell
