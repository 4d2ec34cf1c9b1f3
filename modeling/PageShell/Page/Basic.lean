/-
The page: a terminal in a browser.

While no line is running there is a field to enter lines in. A line that is entered runs beside the page as a job: it
writes to the terminal at once, and keeps its session to itself until it is done. Then its session becomes the
terminal's, a blank field appears, and the page that the line asks for is opened.

Nothing in a page keeps two jobs from running. `Happening` is what a page meets in one moment, in whatever order: keys,
replies, timers. `PageEvent` lets the browser decide what happens as time passes.
-/
import PageShell.Page.Browser
import PageShell.Page.Terminal
import PageShell.Page.View

namespace PageShell

/-- what a job waits for, and how it goes on then -/
inductive Wait where
  /-- a reply to a probe; `expected` is the one that the browser is about to give -/
  | reply (expected : Reply) (next : Reply → Process Outcome)
  /-- the end of a pause -/
  | pause (next : Process Outcome)

/-- how a job goes on when the browser has what it waits for -/
def Wait.over : Wait → Process Outcome
  | .reply expected next => next expected
  | .pause next => next

/-- a line that is running and waits: when the browser has what it waits for, and what that is -/
structure Job where
  wake : Wake
  wait : Wait

/-- a page -/
structure Page where
  terminal : Terminal
  browser : Browser
  /-- a line is running; the field is not there meanwhile -/
  isRunning : Bool
  field : Field
  /-- the lines that are running -/
  jobs : List Job

/-- how far the time goes -/
inductive Horizon where
  /-- it stands still -/
  | still
  /-- to a moment -/
  | moment (time : Float)
  /-- as far as it takes -/
  | unbounded

/-- a moment is not beyond the horizon -/
def Horizon.reaches (h : Horizon) (due : Float) : Bool :=
  match h with
  | .still => false
  | .moment time => due ≤ time
  | .unbounded => true

@[simp] theorem Horizon.reaches_still (due : Float) : Horizon.still.reaches due = false := rfl

/-- what happens to a page in one moment -/
inductive Happening where
  | field (e : FieldEvent)
  | click
  /-- a job gets the reply that it waits for -/
  | reply (job : Nat) (r : Reply)
  /-- the pause of a job is over -/
  | timer (job : Nat)
  /-- the clock shows another time -/
  | clock (now : Float)

/-- what happens to a page in a browser that keeps to its own schedule -/
inductive PageEvent where
  | field (e : FieldEvent)
  | click
  /-- some milliseconds pass -/
  | advance (milliseconds : Float)
  /-- time passes until nothing is running -/
  | settle

namespace Page

/-- the page of a terminal, before anything happens -/
def ofTerminal (t : Terminal) (browser : Browser) : Page :=
  ⟨t, browser, false, .blank, []⟩

/-- the page of this site, before anything happens -/
def start (browser : Browser) : Page :=
  ofTerminal .start browser

/-- the field, if there is one -/
def field? (p : Page) : Option Field :=
  if p.isRunning then none else some p.field

/-! ## Running a line -/

/-- a line is done -/
def finish (p : Page) (o : Outcome) : Page :=
  { p with
    terminal := { p.terminal with session := o.session }
    browser :=
      match o.page with
      | some url => p.browser.navigate url
      | none => p.browser
    isRunning := false
    field := .blank }

/-- run a process as far as the horizon; if it waits beyond, it becomes a job -/
def drive (h : Horizon) : Process Outcome → Page → Page
  | .done o, p => p.finish o
  | .write w next, p => drive h next { p with terminal := p.terminal.write w }
  | .probe address next, p =>
    let (browser, wake, reply) := p.browser.probe address
    if h.reaches wake.due then drive h (next reply) { p with browser := browser.wake wake }
    else { p with browser, jobs := p.jobs ++ [⟨wake, .reply reply next⟩] }
  | .sleep ms next, p =>
    let (browser, wake) := p.browser.sleep ms
    if h.reaches wake.due then drive h next { p with browser := browser.wake wake }
    else { p with browser, jobs := p.jobs ++ [⟨wake, .pause next⟩] }

/-- a job goes on if the horizon reaches the moment it waits for -/
def resumeJob (h : Horizon) (p : Page) (job : Job) : Page :=
  if h.reaches job.wake.due then
    drive h job.wait.over { p with browser := p.browser.wake job.wake }
  else { p with jobs := p.jobs ++ [job] }

/-- the jobs go on, one after another, as far as the horizon -/
def resume (h : Horizon) (p : Page) : Page :=
  p.jobs.foldl (resumeJob h) { p with jobs := [] }

/-! ## What happens in one moment -/

/-- the terminal as the host of the field, with the line that the field has it run -/
def host : Host (Terminal × Option String) where
  submit line := fun (t, _) => (t.enter line, some line)
  retrieve direction := fun (t, submitted) =>
    let (line, t) := t.retrieve direction
    (line, t, submitted)
  complete line := fun (t, submitted) => (t.complete line, t, submitted)

/-- a line is entered: it starts to run, and waits where it first has to -/
def launch (p : Page) (line : String) : Page :=
  drive .still (p.terminal.process line) { p with isRunning := true }

/-- something happens to the field; a page without a field does not notice -/
def fieldEvent (p : Page) (e : FieldEvent) : Page :=
  if p.isRunning then p
  else
    let (field, terminal, submitted) := p.field.handle host e (p.terminal, none)
    let p := { p with terminal, field }
    match submitted with
    | none => p
    | some line => p.launch line

/-- the page is clicked, which gives the focus to the field -/
def click (p : Page) : Page :=
  { p with browser := (p.browser.focus p.field?.isSome).1 }

/-- the page without a job, at the moment that the job waited for -/
def wakeJob (p : Page) (index : Nat) (wake : Wake) : Page :=
  { p with browser := p.browser.wake wake, jobs := p.jobs.eraseIdx index }

/-- one happening; a reply or a timer that no job waits for changes nothing -/
def happen (p : Page) : Happening → Page
  | .field e => p.fieldEvent e
  | .click => p.click
  | .reply index r =>
    match p.jobs[index]? with
    | some ⟨wake, .reply _ next⟩ => drive .still (next r) (p.wakeJob index wake)
    | _ => p
  | .timer index =>
    match p.jobs[index]? with
    | some ⟨wake, .pause next⟩ => drive .still next (p.wakeJob index wake)
    | _ => p
  | .clock now => { p with browser := { p.browser with now } }

/-- happenings one after another -/
def happenAll (p : Page) (hs : List Happening) : Page :=
  hs.foldl happen p

/-! ## What happens as time passes -/

/-- let some milliseconds pass -/
def advance (p : Page) (milliseconds : Float) : Page :=
  let time := p.browser.now + milliseconds
  let p := p.resume (.moment time)
  { p with browser := { p.browser with now := time } }

/-- let time pass until nothing is running -/
def settle (p : Page) : Page :=
  p.resume .unbounded

/-- one event, and what is due at once -/
def step (p : Page) : PageEvent → Page
  | .field e => (p.fieldEvent e).resume (.moment p.browser.now)
  | .click => p.click
  | .advance milliseconds => p.advance milliseconds
  | .settle => p.settle

/-- events one after another -/
def run (p : Page) (events : List PageEvent) : Page :=
  events.foldl step p

/-! ## How it looks -/

/-- the page as it looks when it is shown anew -/
def html (p : Page) : Html :=
  View.page p.terminal.transcript.items (p.field?.map fun _ => p.terminal.prompt)

end Page

end PageShell
