/-
Only `cd` moves a session.

Which command a line runs depends on the environment and not on the working directory, and no line changes the
environment. So the lines that run `cd` can be told from the others before any of them runs, and only they matter for
where a session gets to (`sessionAfter_filter`). It starts in a directory and stays in directories, which is why `ls` and
`tree` without an operand never fail (`session_after_lines`).
-/
import PageShell.Proofs.Shell.Listings

namespace PageShell

/-- the working directory is a directory -/
def Session.Grounded (files : FileSystem) (s : Session) : Prop :=
  ∃ children, files.lookup s.cwd = some (.dir children)

namespace Shell

variable (shell : Shell)

/-! ## One line -/

/-- which command a line runs is a matter of the environment -/
theorem commandOf?_congr {s s' : Session} (h : s'.env = s.env) (line : String) :
    shell.commandOf? s' line = shell.commandOf? s line := by
  have hpath : s'.searchPath = s.searchPath := by rw [Session.searchPath, Session.searchPath, h]
  have hcommand : ∀ name, shell.command? s' name = shell.command? s name := by
    intro name
    rw [command?, command?, search, search, hpath]
  unfold commandOf?
  split
  · rfl
  · exact hcommand _

theorem execute_env (s : Session) (line : String) (net : Network) :
    ((shell.execute s line).run net).result.session.env = s.env := by
  rcases shell.execute_cases s line net with hsame | ⟨-, operand, path, -, -, hresult⟩
  · rw [hsame]
  · rw [hresult]

theorem execute_grounded {s : Session} (h : s.Grounded shell.files) (line : String) (net : Network) :
    ((shell.execute s line).run net).result.session.Grounded shell.files := by
  rcases shell.execute_cases s line net with hsame | ⟨-, operand, path, -, hdir, hresult⟩
  · rwa [hsame]
  · rw [hresult]
    exact hdir

/-- a line that does not run `cd` leaves the session as it was -/
theorem session_of_commandOf?_ne_cd {s : Session} {line : String} (h : shell.commandOf? s line ≠ some .cd)
    (net : Network) : ((shell.execute s line).run net).result.session = s := by
  rcases shell.execute_cases s line net with hsame | ⟨hcd, -⟩
  · exact hsame
  · exact absurd hcd h

/-! ## Many lines -/

theorem sessionAfter_env (s : Session) (lines : List (String × Network)) : (shell.sessionAfter s lines).env = s.env :=
  sessionAfter_inv (I := fun t => t.env = s.env)
    (fun t line net ht => (shell.execute_env t line net).trans ht) rfl lines

theorem sessionAfter_grounded {s : Session} (h : s.Grounded shell.files) (lines : List (String × Network)) :
    (shell.sessionAfter s lines).Grounded shell.files :=
  sessionAfter_inv (I := fun t => t.Grounded shell.files)
    (fun _ line net ht => shell.execute_grounded ht line net) h lines

/-- a line that runs `cd` in a session of this environment -/
def runsCd (s : Session) (line : String × Network) : Bool :=
  shell.commandOf? s line.1 = some .cd

/-- lines that do not run `cd` can be left out -/
theorem sessionAfter_filter (s t : Session) (h : t.env = s.env) (lines : List (String × Network)) :
    shell.sessionAfter t (lines.filter (shell.runsCd s)) = shell.sessionAfter t lines := by
  induction lines generalizing t with
  | nil => rfl
  | cons l lines ih =>
    have henv : ((shell.execute t l.1).run l.2).result.session.env = s.env := (shell.execute_env t l.1 l.2).trans h
    by_cases hcd : shell.commandOf? s l.1 = some .cd
    · rw [List.filter_cons_of_pos (by simpa [runsCd] using hcd)]
      exact ih _ henv
    · rw [List.filter_cons_of_neg (by simpa [runsCd] using hcd)]
      have hsame : ((shell.execute t l.1).run l.2).result.session = t :=
        shell.session_of_commandOf?_ne_cd (by rwa [shell.commandOf?_congr h]) l.2
      calc shell.sessionAfter t (lines.filter (shell.runsCd s))
        _ = shell.sessionAfter t lines := ih t h
        _ = shell.sessionAfter ((shell.execute t l.1).run l.2).result.session lines := by rw [hsame]

/-! ## The commands that show the working directory -/

/-- without an operand `tree` draws the working directory -/
theorem run_call_tree {s : Session} {children : List (String × Entry)}
    (h : shell.files.lookup s.cwd = some (.dir children)) (net : Network) :
    (shell.call s .tree []).run net =
      ⟨(("." :: Tree.draw children).map .text).map .append, [], .success s⟩ := by
  have hrun : Commands.tree ⟨shell, s⟩ [] = .ok (.lines (("." :: Tree.draw children).map .text)) := by
    simp [Commands.tree, Context.lookup, Context.resolve, Path.resolve, h, Tree.drawBelow, Tree.draw]
  rw [call, Builtin.run, hrun, Process.andThen, conclude, Process.run_writeAll]
  simp [Effect.lines, Effect.nothing, Process.run, Outcome.success, Session.move]

/-- in a directory, `ls` and `tree` without an operand succeed and write no error -/
theorem execute_here {s : Session} (h : s.Grounded shell.files) {line name : String} (hline : Text.words line = [name])
    (hcommand : shell.commandOf? s line = some .ls ∨ shell.commandOf? s line = some .tree) (net : Network) :
    ((shell.execute s line).run net).result = .success s ∧
      ∀ e, .append (.error e) ∉ ((shell.execute s line).run net).writes := by
  obtain ⟨children, hdir⟩ := h
  rcases hcommand with hb | hb
  · have hhere : shell.files.lookup (Path.resolve ([] : List String).head? s.cwd) = some (.dir children) := by
      rw [List.head?_nil, Path.resolve, hdir]
    rw [shell.execute_of_commandOf? hb, hline, List.tail_cons, run_call_ls hhere]
    exact ⟨rfl, by simp⟩
  · rw [shell.execute_of_commandOf? hb, hline, List.tail_cons, shell.run_call_tree hdir]
    exact ⟨rfl, by simp⟩

end Shell

/-! ## After any lines -/

/--
**Sessions after any lines.** A session that starts in a directory stays in directories and keeps its environment, and a
line that changes it has run `cd` with success, by whatever name. Hence `ls` and `tree` without an operand succeed, and
what a line does depends, of all the lines before it, on those that run `cd` alone.
-/
theorem session_after_lines (shell : Shell) (session : Session) (h : session.Grounded shell.files)
    (lines : List (String × Network)) :
    let s := shell.sessionAfter session lines
    s.Grounded shell.files ∧ s.env = session.env ∧
      (∀ line net, ((shell.execute s line).run net).result.session ≠ s →
        shell.commandOf? s line = some .cd ∧ ((shell.execute s line).run net).result.status = 0) ∧
      (∀ line name net, Text.words line = [name] →
        shell.commandOf? s line = some .ls ∨ shell.commandOf? s line = some .tree →
        ((shell.execute s line).run net).result = .success s ∧
          ∀ e, .append (.error e) ∉ ((shell.execute s line).run net).writes) ∧
      ∀ others : List (String × Network),
        others.filter (shell.runsCd session) = lines.filter (shell.runsCd session) →
        ∀ line net, (shell.execute (shell.sessionAfter session others) line).run net = (shell.execute s line).run net := by
  intro s
  have hgrounded : s.Grounded shell.files := shell.sessionAfter_grounded h lines
  refine ⟨hgrounded, shell.sessionAfter_env session lines, ?_, ?_, ?_⟩
  · intro line net hmoved
    rcases shell.execute_cases s line net with hsame | ⟨hcd, operand, path, -, -, hresult⟩
    · exact absurd hsame hmoved
    · exact ⟨hcd, by rw [hresult]⟩
  · intro line name net hline hcommand
    exact shell.execute_here hgrounded hline hcommand net
  · intro others hothers line net
    have hsame : shell.sessionAfter session others = s := by
      rw [← shell.sessionAfter_filter session session rfl others, hothers,
        shell.sessionAfter_filter session session rfl lines]
    rw [hsame]

/-- without a registered command, executables on the search path go to a directory and list it -/
theorem session_after_lines_search :
    let shell : Shell :=
      ⟨.ofChildren [("bin", .dir [("go", .exec .cd), ("look", .exec .ls)]), ("home", .dir [("notes", .text "")])],
        .ofList []⟩
    let session := Session.start "/" [("PATH", "/nowhere:/bin")]
    let lines := [("look bin", Network.ofReplies []), ("go home", .ofReplies []), ("go notes", .ofReplies [])]
    session.Grounded shell.files ∧ (shell.sessionAfter session lines).cwd = "/home" ∧
      ((shell.execute (shell.sessionAfter session lines) "look").run (.ofReplies [])).result =
        .success (shell.sessionAfter session lines) := by
  intro shell session lines
  have hroot : Path.segments "/" = [] := by decide
  have hgrounded : session.Grounded shell.files := ⟨shell.files.root, FileSystem.lookup_eq_descend hroot shell.files⟩
  have hcwd : (shell.sessionAfter session lines).cwd = "/home" := by decide +kernel
  have hwords : Text.words "look" = ["look"] := by decide
  have hlook : shell.commandOf? (shell.sessionAfter session lines) "look" = some .ls := by decide +kernel
  obtain ⟨-, -, -, hhere, -⟩ := session_after_lines shell session hgrounded lines
  exact ⟨hgrounded, hcwd, (hhere "look" "look" (.ofReplies []) hwords (Or.inl hlook)).1⟩

end PageShell
