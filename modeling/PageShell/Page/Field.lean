/-
The field that lines are entered in.

The field asks the page around it, its `Host`, to run a line, to retrieve one and to complete one; the
host keeps a state of its own. A key does what its meaning says, and any key but Tab ends the walk
through candidates, as does typing.
-/
import PageShell.Completion
import PageShell.Page.TabCycle

namespace PageShell

/-- what a field asks of the page around it, whose state is `σ` -/
structure Host (σ : Type) where
  submit : String → σ → σ
  retrieve : Int → σ → Option String × σ
  complete : String → σ → Completion × σ

/-- what a key means to the field -/
inductive Key where
  | tab
  | enter
  | up
  | down
  /-- give the line up -/
  | abandon
  /-- clear the transcript -/
  | clear
  | other
  deriving DecidableEq, Repr

namespace Key

/-- the meaning of a key by its name, pressed with Control or without -/
def ofName (name : String) (control : Bool) : Key :=
  if name = "Tab" then .tab
  else if name = "Enter" then .enter
  else if name = "ArrowUp" then .up
  else if name = "ArrowDown" then .down
  else if name = "c" ∧ control then .abandon
  else if name = "l" ∧ control then .clear
  else .other

/-- the field keeps the browser from doing what it does with the key -/
def isTaken : Key → Bool
  | .tab | .up | .down | .clear => true
  | .enter | .abandon | .other => false

end Key

/-- what happens to a field -/
inductive FieldEvent where
  | key (k : Key)
  /-- the field now holds this text -/
  | input (text : String)
  /-- an input that belongs to no field -/
  | stray
  deriving DecidableEq, Repr

/-- a field: what it holds, and the candidates on show -/
structure Field where
  value : String
  cycle : TabCycle
  deriving DecidableEq, Repr

namespace Field

variable {σ : Type}

/-- an empty field -/
def blank : Field :=
  ⟨"", .idle⟩

/-- walk on through the candidates, or ask for a completion -/
def complete (host : Host σ) (f : Field) (s : σ) : Field × σ :=
  if f.value.isEmpty then (f, s)
  else if f.cycle.isActive then
    let cycle := f.cycle.advance
    (⟨cycle.completion?.getD f.value, cycle⟩, s)
  else
    match host.complete f.value s with
    | (.none, s) => (f, s)
    | (.single line, s) => ({ f with value := line }, s)
    | (.several line candidates, s) =>
      let cycle := TabCycle.start line candidates
      if f.value.utf8ByteSize < line.utf8ByteSize then (⟨line, cycle⟩, s)
      else (⟨cycle.completion?.getD f.value, cycle⟩, s)

/-- a key is pressed -/
def press (host : Host σ) (k : Key) (f : Field) (s : σ) : Field × σ :=
  match k with
  | .tab => f.complete host s
  | .enter => (blank, host.submit f.value s)
  | .up =>
    let (line, s) := host.retrieve (-1) s
    (⟨line.getD f.value, .idle⟩, s)
  | .down =>
    let (line, s) := host.retrieve 1 s
    (⟨line.getD "", .idle⟩, s)
  | .abandon => (blank, s)
  | .clear => ({ f with cycle := .idle }, host.submit "clear" s)
  | .other => ({ f with cycle := .idle }, s)

/-- one event -/
def handle (host : Host σ) (e : FieldEvent) (f : Field) (s : σ) : Field × σ :=
  match e with
  | .key k => f.press host k s
  | .input text => (⟨text, .idle⟩, s)
  | .stray => (f, s)

/-- events one after another -/
def handleAll (host : Host σ) (events : List FieldEvent) (f : Field) (s : σ) : Field × σ :=
  events.foldl (fun (f, s) e => f.handle host e s) (f, s)

end Field

/-- the field keeps the browser from its own reaction -/
def FieldEvent.isTaken : FieldEvent → Bool
  | .key k => k.isTaken
  | .input _ | .stray => false

end PageShell
