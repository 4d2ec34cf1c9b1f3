/-
What a line does to the session.

However a command is reached, it is called with the session that the line found, and its result decides the outcome
(`run_call`). A line either leaves the session as it was or has run `cd`, and then the new working directory is what an
operand resolves to, and is a directory (`execute_session`). `sessionAfter` runs lines one after another.
-/
import PageShell.Proofs.FileSystem.Descent
import PageShell.Shell.Interpreter

namespace PageShell

namespace Process

variable {α β : Type}

/-- the result of a process that goes on is that of what it goes on with -/
theorem result_andThen (f : α → Process β) (p : Process α) (net : Network) :
    ∃ rest : Network, ((andThen f p).run net).result = ((f (p.run net).result).run rest).result := by
  obtain ⟨rest, h⟩ := run_andThen f p net
  exact ⟨rest, by rw [h]⟩

end Process

/-- the outcome that the result of a command comes to -/
def Outcome.ofResult (session : Session) : Except ShellError Effect → Outcome
  | .ok effect => ⟨session.move effect.cwd, 0, effect.page⟩
  | .error e => ⟨session, e.status, none⟩

theorem result_conclude (session : Session) (r : Except ShellError Effect) (net : Network) :
    ((conclude session r).run net).result = .ofResult session r := by
  cases r with
  | ok effect => simp [conclude, Process.run_writeAll, Process.run, Outcome.ofResult]
  | error e => rfl

/-- a command as a line runs it, from its first step to the outcome of the line -/
def Shell.call (shell : Shell) (session : Session) (b : Builtin) (args : List String) : Process Outcome :=
  (b.run ⟨shell, session⟩ args).andThen (conclude session)

/-- the outcome of a call is decided by the result of the command -/
theorem Shell.result_call (shell : Shell) (session : Session) (b : Builtin) (args : List String) (net : Network) :
    ((shell.call session b args).run net).result =
      .ofResult session ((b.run ⟨shell, session⟩ args).run net).result := by
  obtain ⟨rest, h⟩ := Process.result_andThen (conclude session) (b.run ⟨shell, session⟩ args) net
  rw [Shell.call, h, result_conclude]

/-! ## The commands that move -/

theorem Ping.result_probes (address : String) (n number : Nat) (net : Network) :
    ((Ping.probes address n number).run net).result = .ok .nothing ∨
      ((Ping.probes address n number).run net).result = .error (.unreachable address) := by
  induction n generalizing number net with
  | zero => exact Or.inl rfl
  | succ n ih =>
    simp only [Ping.probes, Process.run]
    cases net 0 with
    | error e => exact Or.inr rfl
    | ok elapsed =>
      by_cases hn : n = 0
      · simp [hn, Process.run]
      · simpa [hn, Process.run] using ih (number + 1) net.next

/-- `cd` succeeds only if its operand leads to a directory, and goes there -/
theorem Commands.cd_eq_ok {ctx : Context} {args : List String} {effect : Effect} (h : Commands.cd ctx args = .ok effect) :
    ∃ operand path, path = ctx.resolve (some operand) ∧ (∃ children, ctx.lookup path = some (.dir children)) ∧
      effect = ⟨[], some path, Site.page? path⟩ := by
  refine ⟨args.head?.getD Site.home, _, rfl, ?_⟩
  simp only [Commands.cd] at h
  split at h
  · rename_i children hdir
    exact ⟨⟨children, hdir⟩, (Except.ok.inj h).symm⟩
  · cases h
  · cases h
  · cases h

/-- no command but `cd` asks for a new working directory -/
theorem Builtin.cwd_of_run {b : Builtin} {ctx : Context} {args : List String} {net : Network} {effect : Effect}
    (h : ((b.run ctx args).run net).result = .ok effect) :
    effect.cwd = none ∨ b = .cd ∧ Commands.cd ctx args = .ok effect := by
  cases b with
  | cd => exact Or.inr ⟨rfl, h⟩
  | ping =>
    refine Or.inl ?_
    cases args with
    | nil => cases h
    | cons address args =>
      simp only [Builtin.run, Ping.run, Process.run] at h
      rcases Ping.result_probes address Ping.count 1 net with hp | hp <;> rw [hp] at h
      · rw [← Except.ok.inj h]
        rfl
      · cases h
  | ls =>
    refine Or.inl ?_
    simp only [Builtin.run, Process.run, Commands.ls] at h
    split at h <;> cases h
    all_goals rfl
  | cat =>
    refine Or.inl ?_
    cases args with
    | nil => cases h
    | cons operand args =>
      simp only [Builtin.run, Process.run, Commands.cat] at h
      split at h <;> cases h
      all_goals rfl
  | tree =>
    refine Or.inl ?_
    simp only [Builtin.run, Process.run, Commands.tree] at h
    split at h <;> cases h
    rfl
  | which =>
    refine Or.inl ?_
    cases args with
    | nil => cases h
    | cons name args =>
      simp only [Builtin.run, Process.run, Commands.which] at h
      split at h <;> cases h
      rfl
  | echo | pwd | help | clear | whoami | steam | env | fetchMusic =>
    refine Or.inl ?_
    cases h
    rfl

/-! ## Lines -/

/-- the command that a line runs -/
def Shell.commandOf? (shell : Shell) (session : Session) (line : String) : Option Builtin :=
  match Text.words line with
  | [] => none
  | name :: _ => shell.command? session name

theorem Shell.execute_of_words {shell : Shell} {session : Session} {line name : String} {args : List String}
    {b : Builtin} (hwords : Text.words line = name :: args) (hcommand : shell.command? session name = some b) :
    shell.execute session line = shell.call session b args := by
  simp only [Shell.execute, hwords, hcommand]
  rfl

/-- a line runs a command by calling it, with what stands behind the first word as operands -/
theorem Shell.execute_of_commandOf? {shell : Shell} {session : Session} {line : String} {b : Builtin}
    (h : shell.commandOf? session line = some b) :
    shell.execute session line = shell.call session b (Text.words line).tail := by
  cases hwords : Text.words line with
  | nil =>
    rw [commandOf?, hwords] at h
    cases h
  | cons name args =>
    rw [commandOf?, hwords] at h
    exact Shell.execute_of_words hwords h

/-- a line that runs no command is blank, or its first word is the error -/
theorem Shell.execute_of_commandOf?_eq_none {shell : Shell} {session : Session} {line : String}
    (h : shell.commandOf? session line = none) :
    shell.execute session line = .done (.success session) ∨
      ∃ name, shell.execute session line = conclude session (.error (.commandNotFound name)) := by
  cases hwords : Text.words line with
  | nil => exact Or.inl (by rw [execute, hwords])
  | cons name args =>
    rw [commandOf?, hwords] at h
    have hcommand : shell.command? session name = none := h
    refine Or.inr ⟨name, ?_⟩
    rw [execute, hwords]
    simp only [hcommand]

/-- a line leaves the session as it was, or has run `cd`, which succeeded and has gone where an operand leads -/
theorem Shell.execute_cases (shell : Shell) (session : Session) (line : String) (net : Network) :
    ((shell.execute session line).run net).result.session = session ∨
      shell.commandOf? session line = some .cd ∧
        ∃ operand path, path = Path.resolve (some operand) session.cwd ∧
          (∃ children, shell.files.lookup path = some (.dir children)) ∧
          ((shell.execute session line).run net).result = ⟨{ session with cwd := path }, 0, Site.page? path⟩ := by
  cases hb : shell.commandOf? session line with
  | none =>
    rcases shell.execute_of_commandOf?_eq_none hb with h | ⟨name, h⟩
    · exact Or.inl (by rw [h]; rfl)
    · exact Or.inl (by rw [h]; rfl)
  | some b =>
    rw [shell.execute_of_commandOf? hb, shell.result_call]
    cases hr : ((b.run ⟨shell, session⟩ (Text.words line).tail).run net).result with
    | error e => exact Or.inl rfl
    | ok effect =>
      rcases Builtin.cwd_of_run hr with hcwd | ⟨rfl, hcd⟩
      · exact Or.inl (by simp [Outcome.ofResult, hcwd, Session.move])
      · obtain ⟨operand, path, hpath, hdir, rfl⟩ := Commands.cd_eq_ok hcd
        exact Or.inr ⟨rfl, operand, path, hpath, hdir, rfl⟩

/-- a line leaves the session as it was, or has gone to a directory that an operand leads to -/
theorem Shell.execute_session (shell : Shell) (session : Session) (line : String) (net : Network) :
    ((shell.execute session line).run net).result.session = session ∨
      ∃ operand path, path = Path.resolve (some operand) session.cwd ∧
        (∃ children, shell.files.lookup path = some (.dir children)) ∧
        ((shell.execute session line).run net).result.session = { session with cwd := path } := by
  rcases shell.execute_cases session line net with hsame | ⟨-, operand, path, hpath, hdir, hresult⟩
  · exact Or.inl hsame
  · exact Or.inr ⟨operand, path, hpath, hdir, by rw [hresult]⟩

/-- the runs of some lines, one after another, each on a network of its own -/
def Shell.runs (shell : Shell) (session : Session) : List (String × Network) → List (Run Outcome)
  | [] => []
  | (line, net) :: lines =>
    let r := (shell.execute session line).run net
    r :: shell.runs r.result.session lines

/-- the session after some lines, each run on a network of its own -/
def Shell.sessionAfter (shell : Shell) (session : Session) (lines : List (String × Network)) : Session :=
  lines.foldl (fun s l => ((shell.execute s l.1).run l.2).result.session) session

/-- what every line keeps holds after any number of lines -/
theorem Shell.sessionAfter_inv {shell : Shell} {I : Session → Prop}
    (hstep : ∀ s line net, I s → I ((shell.execute s line).run net).result.session) {session : Session}
    (h : I session) (lines : List (String × Network)) : I (shell.sessionAfter session lines) := by
  induction lines generalizing session with
  | nil => exact h
  | cons l lines ih => exact ih (hstep session l.1 l.2 h)

end PageShell
