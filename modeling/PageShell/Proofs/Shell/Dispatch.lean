/-
Which command a name runs, and what `which` says about it.

A name runs the command that it is registered for, and if it is not registered, the first executable of that name on the
search path (`Shell.Runs`, `Shell.command?_eq_some_iff`). If there is neither, the line says so, in words that no command
ends with (`Shell.writes_commandNotFound_iff`). `which` looks for the executable alone (`Shell.which_answers`). So for a
name that is not registered the two agree (`commands_agree_with_which`).
-/
import PageShell.Proofs.Shell.Endings
import PageShell.Proofs.Text.Cuts

namespace PageShell

open Text (Unbroken)

/-! ## The search path -/

/-- the entries of the search path are the texts between its colons -/
theorem Session.searchPath_spec (s : Session) :
    ":".intercalate s.searchPath = (s.env.get? pathKey).getD "" ∧ ∀ d ∈ s.searchPath, ':' ∉ d.toList := by
  constructor
  · have hpieces : s.searchPath.map String.toList =
        (Text.split (· == ':') ((s.env.get? pathKey).getD "").toList).toList := by simp [searchPath]
    rw [← String.toList_inj, String.toList_intercalate, hpieces]
    exact (Text.intercalate_toList ':' _).trans (Text.join_split ':' _)
  · intro d hd hcolon
    obtain ⟨piece, hpiece, rfl⟩ := List.mem_map.1 hd
    rw [String.toList_ofList] at hcolon
    exact absurd (Text.not_sep_of_mem_split hpiece hcolon) (by decide)

section Executables

variable {files : FileSystem} {dirs : List String} {name path : String} {b : Builtin}

/-- under none of the directories is there an executable of that name -/
def NoExecutable (files : FileSystem) (dirs : List String) (name : String) : Prop :=
  ∀ dir ∈ dirs, ∀ b, files.lookup (dir ++ "/" ++ name) ≠ some (.exec b)

/-- the executable of that name under the first of the directories that has one -/
def FirstExecutable (files : FileSystem) (dirs : List String) (name path : String) (b : Builtin) : Prop :=
  ∃ before dir after, dirs = before ++ dir :: after ∧ NoExecutable files before name ∧ path = dir ++ "/" ++ name ∧
    files.lookup path = some (.exec b)

theorem FileSystem.executable?_eq_some_iff {dir : String} : files.executable? dir name = some (path, b) ↔
    path = dir ++ "/" ++ name ∧ files.lookup path = some (.exec b) := by
  unfold executable?
  dsimp only
  constructor
  · intro h
    split at h
    · rename_i b' hlookup
      obtain ⟨rfl, rfl⟩ := Prod.mk.inj (Option.some.inj h)
      exact ⟨rfl, hlookup⟩
    · cases h
  · intro ⟨hpath, hlookup⟩
    subst hpath
    rw [hlookup]

theorem FileSystem.executable?_eq_none_iff {dir : String} : files.executable? dir name = none ↔
    ∀ b, files.lookup (dir ++ "/" ++ name) ≠ some (.exec b) := by
  rw [Option.eq_none_iff_forall_ne_some]
  constructor
  · intro h b hlookup
    exact h (dir ++ "/" ++ name, b) (executable?_eq_some_iff.2 ⟨rfl, hlookup⟩)
  · intro h found hfound
    obtain ⟨hpath, hlookup⟩ := executable?_eq_some_iff.1 hfound
    exact h found.2 (hpath ▸ hlookup)

theorem Shell.search_eq_some_iff {shell : Shell} {session : Session} : shell.search session name = some (path, b) ↔
    FirstExecutable shell.files session.searchPath name path b := by
  rw [search, List.findSome?_eq_some_iff]
  simp only [FileSystem.executable?_eq_some_iff, FileSystem.executable?_eq_none_iff]
  constructor
  · intro ⟨before, dir, after, hdirs, ⟨hpath, hlookup⟩, hbefore⟩
    exact ⟨before, dir, after, hdirs, hbefore, hpath, hlookup⟩
  · intro ⟨before, dir, after, hdirs, hbefore, hpath, hlookup⟩
    exact ⟨before, dir, after, hdirs, ⟨hpath, hlookup⟩, hbefore⟩

theorem Shell.search_eq_none_iff {shell : Shell} {session : Session} : shell.search session name = none ↔
    NoExecutable shell.files session.searchPath name := by
  rw [search, List.findSome?_eq_none_iff]
  simp only [FileSystem.executable?_eq_none_iff]
  rfl

end Executables

/-! ## Names -/

/-- a name is registered for a command -/
def Registry.Binds (r : Registry) (name : String) (b : Builtin) : Prop :=
  ∃ e, r.get? name = some e ∧ e.builtin = b

/-- a name runs a command: it is registered for it, or is not registered and is the first such executable -/
inductive Shell.Runs (shell : Shell) (session : Session) (name : String) (b : Builtin) : Prop where
  | registered (h : shell.registry.Binds name b)
  | found (hname : name ∉ shell.registry.names) (path : String)
      (h : FirstExecutable shell.files session.searchPath name path b)

theorem Registry.get?_eq_none_iff {r : Registry} {name : String} : r.get? name = none ↔ name ∉ r.names := by
  rw [get?, List.find?_eq_none, names, List.mem_map]
  simp

theorem Registry.mem_names_of_get? {r : Registry} {name : String} {e : RegistryEntry} (h : r.get? name = some e) :
    name ∈ r.names := by
  by_contra hname
  rw [get?_eq_none_iff.2 hname] at h
  cases h

section Names

variable {shell : Shell} {session : Session} {name : String} {b : Builtin}

theorem Shell.command?_eq_some_iff : shell.command? session name = some b ↔ shell.Runs session name b := by
  unfold command?
  cases hget : shell.registry.get? name with
  | some e =>
    constructor
    · intro h
      exact .registered ⟨e, hget, Option.some.inj h⟩
    · intro h
      cases h with
      | registered h =>
        obtain ⟨e', he', rfl⟩ := h
        rw [hget] at he'
        cases he'
        rfl
      | found hname _ _ => exact absurd (Registry.mem_names_of_get? hget) hname
  | none =>
    have hmem : name ∉ shell.registry.names := Registry.get?_eq_none_iff.1 hget
    constructor
    · intro h
      obtain ⟨⟨path, b'⟩, hsearch, rfl⟩ := Option.map_eq_some_iff.1 h
      exact .found hmem path (search_eq_some_iff.1 hsearch)
    · intro h
      cases h with
      | registered h =>
        obtain ⟨e', he', -⟩ := h
        rw [hget] at he'
        cases he'
      | found _ path h =>
        simp only [search_eq_some_iff.2 h, Option.map_some]

theorem Shell.command?_eq_none_iff : shell.command? session name = none ↔
    name ∉ shell.registry.names ∧ NoExecutable shell.files session.searchPath name := by
  unfold command?
  cases hget : shell.registry.get? name with
  | some e =>
    have hmem : name ∈ shell.registry.names := Registry.mem_names_of_get? hget
    simp [hmem]
  | none =>
    have hmem : name ∉ shell.registry.names := Registry.get?_eq_none_iff.1 hget
    simp [hmem, search_eq_none_iff]

end Names

/-! ## The error of a name that runs nothing -/

namespace ShellError

/-- the error of a word that is no command reads like no other -/
theorem eq_commandNotFound_of_message {e : ShellError} {name : String} (hname : Unbroken name)
    (h : e.message = name ++ ": command not found") : e = .commandNotFound name := by
  -- the last three characters tell all but that of `which` apart, and that one would need a name with a blank
  have hend : ∀ s t : String, 3 ≤ t.toList.length → (s ++ t).toList.reverse.take 3 = t.toList.reverse.take 3 := by
    intro s t ht
    rw [String.toList_append, List.reverse_append, List.take_append_of_le_length (by simpa using ht)]
  have hfound := hend name ": command not found" (by decide)
  rw [← h] at hfound
  cases e with
  | commandNotFound n => rw [(String.append_left_inj _).1 h]
  | notOnPath n =>
    have htext : "which: " ++ n = name := (String.append_left_inj _).1 h
    have hblank : Text.isBlank ' ' = false := hname ' ' (by rw [← htext]; simp)
    exact absurd hblank (by decide)
  | unsupportedType => exact absurd hfound (by decide)
  | missingDestination => exact absurd hfound (by decide)
  | _ => exact absurd ((hend _ _ (by decide)).symm.trans hfound) (by decide)

end ShellError

/-- no command ends by saying that a word is no command -/
theorem Builtin.result_ne_commandNotFound (b : Builtin) (ctx : Context) (args : List String) (net : Network)
    (name : String) : ((b.run ctx args).run net).result ≠ .error (.commandNotFound name) := by
  intro h
  cases b with
  | ping =>
    cases args with
    | nil => cases h
    | cons address args =>
      simp only [Builtin.run, Ping.run, Process.run] at h
      rcases Ping.result_probes address Ping.count 1 net with hp | hp <;> rw [hp] at h <;> cases h
  | ls =>
    simp only [Builtin.run, Process.run, Commands.ls] at h
    split at h <;> cases h
  | cd =>
    simp only [Builtin.run, Process.run, Commands.cd] at h
    split at h <;> cases h
  | tree =>
    simp only [Builtin.run, Process.run, Commands.tree] at h
    split at h <;> cases h
  | cat =>
    cases args with
    | nil => cases h
    | cons operand args =>
      simp only [Builtin.run, Process.run, Commands.cat] at h
      split at h <;> cases h
  | which =>
    cases args with
    | nil => cases h
    | cons name args =>
      simp only [Builtin.run, Process.run, Commands.which] at h
      split at h <;> cases h
  | echo | pwd | help | clear | whoami | steam | env | fetchMusic => cases h

namespace Shell

variable {shell : Shell} {session : Session} {line name : String} {args : List String}

/-- a call never says that a word is no command -/
theorem call_not_commandNotFound (hname : Unbroken name) (b : Builtin) (net : Network) :
    .append (.error (name ++ ": command not found")) ∉ ((shell.call session b args).run net).writes := by
  obtain ⟨hproper, hresult⟩ := (b.all_run ⟨shell, session⟩ args).run net
  obtain ⟨rest, hrun⟩ := Process.run_andThen (conclude session) (b.run ⟨shell, session⟩ args) net
  rw [call, hrun]
  dsimp only
  cases h : ((b.run ⟨shell, session⟩ args).run net).result with
  | ok effect =>
    rw [conclude, Process.run_writeAll]
    simp only [Process.run, List.append_nil]
    exact error_not_mem_of_proper (List.forall_mem_append.2 ⟨hproper, (hresult effect h).writes⟩) _
  | error e =>
    intro hmem
    have hmessage : name ++ ": command not found" = e.message := (error_mem_concat_iff hproper).1 hmem
    rw [ShellError.eq_commandNotFound_of_message hname hmessage.symm] at h
    exact b.result_ne_commandNotFound _ _ net name h

theorem execute_of_runs (hline : Text.words line = name :: args) {b : Builtin} (h : shell.Runs session name b) :
    shell.execute session line = shell.call session b args := by
  have hb : shell.commandOf? session line = some b := by
    rw [commandOf?, hline]
    exact command?_eq_some_iff.2 h
  rw [execute_of_commandOf? hb, hline, List.tail_cons]

/-- a name that runs nothing is the error of its line -/
theorem run_of_runs_nothing (hline : Text.words line = name :: args) (hname : name ∉ shell.registry.names)
    (hnone : NoExecutable shell.files session.searchPath name) (net : Network) :
    (shell.execute session line).run net =
      ⟨[.append (.error (name ++ ": command not found"))], [], ⟨session, 1, none⟩⟩ := by
  have hcommand : shell.command? session name = none := command?_eq_none_iff.2 ⟨hname, hnone⟩
  rw [execute, hline]
  simp only [hcommand]
  rfl

/-! ## What `which` says -/

theorem run_which_of_found {path : String} {b : Builtin} (h : shell.search session name = some (path, b)) (net : Network) :
    (shell.call session .which (name :: args)).run net = ⟨[.append (.text path)], [], .success session⟩ := by
  have hwhich : Commands.which ⟨shell, session⟩ (name :: args) = .ok (.text path) := by
    simp only [Commands.which, h]
  rw [call, Builtin.run, hwhich]
  rfl

theorem run_which_of_none (h : shell.search session name = none) (net : Network) :
    (shell.call session .which (name :: args)).run net =
      ⟨[.append (.error ("which: " ++ name ++ ": command not found"))], [], ⟨session, 1, none⟩⟩ := by
  have hwhich : Commands.which ⟨shell, session⟩ (name :: args) = .error (.notOnPath name) := by
    simp only [Commands.which, h]
  rw [call, Builtin.run, hwhich]
  rfl

/-- `which` is given a name: it prints the path of the first executable, or fails if there is none -/
theorem which_answers (session : Session) {w line : String} (hw : shell.registry.Binds w .which)
    (hline : Text.words line = w :: name :: args) (net : Network) :
    let r := (shell.execute session line).run net
    (∀ path b, FirstExecutable shell.files session.searchPath name path b →
        r = ⟨[.append (.text path)], [], .success session⟩) ∧
      (NoExecutable shell.files session.searchPath name →
        r = ⟨[.append (.error ("which: " ++ name ++ ": command not found"))], [], ⟨session, 1, none⟩⟩) ∧
      (r.result.status = 0 ↔ ∃ path b, FirstExecutable shell.files session.searchPath name path b) := by
  intro r
  have hcall : r = (shell.call session .which (name :: args)).run net := by
    rw [← execute_of_runs hline (.registered hw)]
  have hfound : ∀ path b, FirstExecutable shell.files session.searchPath name path b →
      r = ⟨[.append (.text path)], [], .success session⟩ := by
    intro path b h
    rw [hcall, run_which_of_found (search_eq_some_iff.2 h)]
  have hnone : NoExecutable shell.files session.searchPath name →
      r = ⟨[.append (.error ("which: " ++ name ++ ": command not found"))], [], ⟨session, 1, none⟩⟩ := by
    intro h
    rw [hcall, run_which_of_none (search_eq_none_iff.2 h)]
  refine ⟨hfound, hnone, ?_⟩
  constructor
  · intro hstatus
    cases h : shell.search session name with
    | some found => exact ⟨found.1, found.2, search_eq_some_iff.1 h⟩
    | none =>
      rw [hnone (search_eq_none_iff.1 h)] at hstatus
      cases hstatus
  · intro ⟨path, b, h⟩
    rw [hfound path b h]
    rfl

/-- a name that is not registered runs what the first executable is bound to, and nothing else -/
theorem runs_iff_of_not_registered (hname : name ∉ shell.registry.names) {b : Builtin} :
    shell.Runs session name b ↔ ∃ path, FirstExecutable shell.files session.searchPath name path b := by
  constructor
  · intro h
    cases h with
    | registered h =>
      obtain ⟨e, he, -⟩ := h
      exact absurd (Registry.mem_names_of_get? he) hname
    | found _ path h => exact ⟨path, h⟩
  · intro ⟨path, h⟩
    exact .found hname path h

/-- for a name that is not registered `which` succeeds if and only if the name runs, and prints where its command is -/
theorem which_agrees {w line : String} (hw : shell.registry.Binds w .which)
    (hline : Text.words line = w :: name :: args) (net : Network) (hname : name ∉ shell.registry.names) :
    let r := (shell.execute session line).run net
    (r.result.status = 0 ↔ ∃ b, shell.Runs session name b) ∧
      ∀ path, .append (.text path) ∈ r.writes →
        ∃ b, shell.files.lookup path = some (.exec b) ∧ shell.Runs session name b := by
  intro r
  obtain ⟨hfound, hnone, hstatus⟩ := which_answers session hw hline net
  constructor
  · simp only [runs_iff_of_not_registered hname]
    exact hstatus.trans exists_comm
  · intro path hpath
    cases h : shell.search session name with
    | none =>
      have hrun : r = _ := hnone (search_eq_none_iff.1 h)
      rw [hrun] at hpath
      simp at hpath
    | some found =>
      have hfirst : FirstExecutable shell.files session.searchPath name found.1 found.2 := search_eq_some_iff.1 h
      have hrun : r = _ := hfound found.1 found.2 hfirst
      rw [hrun] at hpath
      have hprinted : path = found.1 := by simpa using hpath
      have hlookup : shell.files.lookup found.1 = some (.exec found.2) := by
        obtain ⟨-, -, -, -, -, -, hlookup⟩ := hfirst
        exact hlookup
      exact ⟨found.2, by rw [hprinted, hlookup], .found hname found.1 hfirst⟩

theorem writes_commandNotFound_iff (hline : Text.words line = name :: args) (net : Network) :
    let r := (shell.execute session line).run net
    .append (.error (name ++ ": command not found")) ∈ r.writes ∧ r.result.status = 1 ↔
      name ∉ shell.registry.names ∧ NoExecutable shell.files session.searchPath name := by
  intro r
  constructor
  · intro ⟨hwrite, _⟩
    rw [← command?_eq_none_iff]
    cases hb : shell.command? session name with
    | none => rfl
    | some b =>
      have hname : Unbroken name := Text.unbroken_of_mem_words (by rw [hline]; simp)
      have hcall : r = (shell.call session b args).run net := by
        rw [← execute_of_runs hline (command?_eq_some_iff.1 hb)]
      rw [hcall] at hwrite
      exact absurd hwrite (call_not_commandNotFound hname b net)
  · intro ⟨hname, hnone⟩
    have hrun : r = _ := run_of_runs_nothing hline hname hnone net
    rw [hrun]
    simp

end Shell

/--
**Names and `which`.** Let a line begin with a name. The entries of the search path are the texts between the colons of
the variable. The line calls the command that the name runs: the one that it is registered for, else the first executable
of that name on the search path. It says that the name is no command, with status 1, exactly if there is neither, and then
it does nothing else.

`which`, under each name that is registered for it, prints the path of the first executable, whether the name is
registered or not, and fails if there is none. So for a name that is not registered it succeeds exactly if the name runs a
command, and the path that it prints leads to an executable of that command.

Each registered name of the command that a name runs does the same with the same operands, on every network.
-/
theorem commands_agree_with_which (shell : Shell) (session : Session) {line name : String} {args : List String}
    (hline : Text.words line = name :: args) :
    let dirs := session.searchPath
    (":".intercalate dirs = (session.env.get? Session.pathKey).getD "" ∧ ∀ d ∈ dirs, ':' ∉ d.toList) ∧
      (∀ b, shell.Runs session name b → shell.execute session line = shell.call session b args) ∧
      (∀ net, let r := (shell.execute session line).run net
        (.append (.error (name ++ ": command not found")) ∈ r.writes ∧ r.result.status = 1 ↔
            name ∉ shell.registry.names ∧ NoExecutable shell.files dirs name) ∧
          (name ∉ shell.registry.names → NoExecutable shell.files dirs name →
            r = ⟨[.append (.error (name ++ ": command not found"))], [], ⟨session, 1, none⟩⟩)) ∧
      (∀ w asked rest, shell.registry.Binds w .which → Text.words asked = w :: name :: rest →
        ∀ net, let r := (shell.execute session asked).run net
          (∀ path b, FirstExecutable shell.files dirs name path b →
              r = ⟨[.append (.text path)], [], .success session⟩) ∧
            (NoExecutable shell.files dirs name →
              r = ⟨[.append (.error ("which: " ++ name ++ ": command not found"))], [], ⟨session, 1, none⟩⟩) ∧
            (r.result.status = 0 ↔ ∃ path b, FirstExecutable shell.files dirs name path b) ∧
            (name ∉ shell.registry.names →
              (r.result.status = 0 ↔ ∃ b, shell.Runs session name b) ∧
                ∀ path, .append (.text path) ∈ r.writes →
                  ∃ b, shell.files.lookup path = some (.exec b) ∧ shell.Runs session name b)) ∧
      ∀ b same other, shell.Runs session name b → shell.registry.Binds same b → Text.words other = same :: args →
        shell.execute session other = shell.execute session line := by
  intro dirs
  refine ⟨session.searchPath_spec, fun b => Shell.execute_of_runs hline, ?_, ?_, ?_⟩
  · intro net
    exact ⟨Shell.writes_commandNotFound_iff hline net,
      fun hname hnone => Shell.run_of_runs_nothing hline hname hnone net⟩
  · intro w asked rest hw hasked net
    obtain ⟨hfound, hnone, hstatus⟩ := Shell.which_answers session hw hasked net
    exact ⟨hfound, hnone, hstatus, Shell.which_agrees hw hasked net⟩
  · intro b same other hruns hsame hother
    rw [Shell.execute_of_runs hother (.registered hsame), Shell.execute_of_runs hline hruns]

/-- entries that lead to a file, to nothing and to a directory are passed over before the one with an executable -/
theorem commands_agree_with_which_later :
    let shell : Shell :=
      ⟨.ofChildren [("bin", .dir [("list", .exec .ls)]), ("list", .text ""), ("opt", .dir [("list", .dir [])])],
        .ofList [.ofBuiltin .which, .ofBuiltin .ls]⟩
    let session := Session.start "/" [("PATH", ":/nowhere:opt:/bin:/usr/bin")]
    Text.words "list /opt" = ["list", "/opt"] ∧
      FirstExecutable shell.files session.searchPath "list" "/bin/list" .ls ∧
      shell.execute session "ls /opt" = shell.execute session "list /opt" ∧
      ∀ net, (shell.execute session "which list").run net = ⟨[.append (.text "/bin/list")], [], .success session⟩ := by
  intro shell session
  have hline : Text.words "list /opt" = ["list", "/opt"] := by decide
  have hfirst : FirstExecutable shell.files session.searchPath "list" "/bin/list" .ls :=
    Shell.search_eq_some_iff.1 (by decide +kernel)
  have hruns : shell.Runs session "list" .ls := .found (by decide) "/bin/list" hfirst
  obtain ⟨-, -, -, hwhich, hsame⟩ := commands_agree_with_which shell session hline
  refine ⟨hline, hfirst, hsame .ls "ls" "ls /opt" hruns ⟨.ofBuiltin .ls, by decide, rfl⟩ (by decide), ?_⟩
  intro net
  exact (hwhich "which" "which list" [] ⟨.ofBuiltin .which, by decide, rfl⟩ (by decide) net).1 "/bin/list" .ls hfirst

end PageShell
