/-
The working directory, whatever lines are run.

The working directory is a text that every `cd` resolves anew. In a file system of ordinary names it is always the path
of a chain of directories, with one slash at most behind it: `Located` is the invariant, `execute_located` its step and
`located_after_lines` the main result, which also says what the invariant is good for. From such a place a path of
ordinary names leads exactly where the names lead, and two dots lead to the parent.
-/
import PageShell.Proofs.Shell.Sessions

namespace PageShell

open PageShell.Path (Spells Inert OrdinaryName FromRoot absolute segments)

/-- a working directory: the path of a chain of directories -/
structure Located (files : FileSystem) (cwd : String) (names : List String) : Prop where
  spells : Spells cwd names
  directories : ∀ init, init <+: names → ∃ children, files.rootEntry.descend init = some (.dir children)

namespace Located

variable {files : FileSystem} {cwd : String} {names : List String}

/-- the names on the way to a working directory are ordinary if all names are -/
theorem ordinary (h : Located files cwd names) (hfiles : files.rootEntry.NamesAll OrdinaryName) :
    ∀ n ∈ names, OrdinaryName n := by
  obtain ⟨children, hdir⟩ := h.directories names (List.prefix_refl names)
  exact (Entry.namesAll_of_descend hfiles hdir).1

theorem segments_eq (h : Located files cwd names) (hfiles : files.rootEntry.NamesAll OrdinaryName) :
    segments cwd = names :=
  Path.segments_of_spells h.spells fun n hn => (h.ordinary hfiles n hn).1

theorem root (files : FileSystem) : Located files "/" [] where
  spells := Or.inl rfl
  directories init hinit := ⟨files.root, by rw [List.prefix_nil.1 hinit]; rfl⟩

/-- what an operand resolves to is a working directory if it leads to a directory -/
theorem resolve (h : Located files cwd names) {operand : String} {children : List (String × Entry)}
    (hdir : files.lookup (Path.resolve (some operand) cwd) = some (.dir children)) :
    ∃ names', Located files (Path.resolve (some operand) cwd) names' := by
  by_cases hempty : operand = ""
  · exact ⟨names, by rwa [hempty, Path.resolve_empty]⟩
  · obtain ⟨names', hspells, hnames'⟩ := Path.resolve_spells hempty cwd
    have hseg := Path.segments_of_spells hspells hnames'
    rw [FileSystem.lookup_eq_descend hseg] at hdir
    exact ⟨names', hspells, fun init hinit => Entry.dir_of_descend hdir hinit ⟨children, rfl⟩⟩

/-- a path of inert segments leads where these lead, from the working directory or from the root -/
theorem lookup_resolve (h : Located files cwd names) (hfiles : files.rootEntry.NamesAll OrdinaryName) {operand : String}
    (hinert : ∀ n ∈ segments operand, Inert n.toList) :
    files.lookup (Path.resolve (some operand) cwd) =
      files.rootEntry.descend (if FromRoot operand then segments operand else names ++ segments operand) := by
  have hseg := h.segments_eq hfiles
  have hcwd : ∀ n ∈ segments cwd, Inert n.toList := fun n hn => (h.ordinary hfiles n (hseg ▸ hn)).2
  rw [FileSystem.lookup_eq_descend (Path.segments_resolve hcwd hinert), hseg]

end Located

/-- a line leads from a working directory to a working directory -/
theorem Shell.execute_located (shell : Shell) (session : Session) (line : String) (net : Network)
    (h : ∃ names, Located shell.files session.cwd names) :
    ∃ names, Located shell.files ((shell.execute session line).run net).result.session.cwd names := by
  rcases shell.execute_session session line net with hsame | ⟨operand, path, rfl, ⟨children, hdir⟩, hmoved⟩
  · rwa [hsame]
  · obtain ⟨names, hnames⟩ := h
    rw [hmoved]
    exact hnames.resolve hdir

/-! ## Calls of `cd` -/

/-- an operand that leads to a directory is where `cd` goes -/
theorem Shell.call_cd_of_dir {shell : Shell} {session : Session} {operand : String} {children : List (String × Entry)}
    (h : shell.files.lookup (Path.resolve (some operand) session.cwd) = some (.dir children)) (net : Network) :
    ((shell.call session .cd [operand]).run net).result =
      ⟨{ session with cwd := Path.resolve (some operand) session.cwd }, 0,
        Site.page? (Path.resolve (some operand) session.cwd)⟩ := by
  have hrun : ((Builtin.cd.run ⟨shell, session⟩ [operand]).run net).result =
      .ok ⟨[], some (Path.resolve (some operand) session.cwd), Site.page? (Path.resolve (some operand) session.cwd)⟩ := by
    simp [Builtin.run, Process.run, Commands.cd, Context.lookup, Context.resolve, h]
  rw [Shell.result_call, hrun]
  rfl

/-- an operand that leads nowhere makes `cd` fail -/
theorem Shell.call_cd_of_none {shell : Shell} {session : Session} {operand : String}
    (h : shell.files.lookup (Path.resolve (some operand) session.cwd) = none) (net : Network) :
    ((shell.call session .cd [operand]).run net).result = ⟨session, 1, none⟩ := by
  have hrun : ((Builtin.cd.run ⟨shell, session⟩ [operand]).run net).result =
      .error (.directoryNotFound (Path.resolve (some operand) session.cwd)) := by
    simp [Builtin.run, Process.run, Commands.cd, Context.lookup, Context.resolve, h]
  rw [Shell.result_call, hrun]
  rfl

/-- no directory is above the root -/
theorem FileSystem.lookup_above_root {files : FileSystem} (hfiles : files.rootEntry.NamesAll OrdinaryName) :
    files.lookup "/.." = none := by
  have hseg : segments "/.." = [".."] := by decide
  rw [FileSystem.lookup_eq_descend hseg, FileSystem.rootEntry, Entry.descend_cons_dir]
  cases hfind : Keyed.find? ".." files.root with
  | none => rfl
  | some e => exact absurd (Entry.namesAll_of_find? hfiles hfind).1 (by decide)

/-- two dots lead `cd` to the parent of a directory below the root -/
theorem Shell.call_cd_parent {shell : Shell} {session : Session} {init : List String} {last : String}
    (h : Located shell.files session.cwd (init ++ [last])) (hfiles : shell.files.rootEntry.NamesAll OrdinaryName)
    (net : Network) : ((shell.call session .cd [".."]).run net).result =
      ⟨{ session with cwd := absolute init }, 0, Site.page? (absolute init)⟩ := by
  have hnames := h.ordinary hfiles
  have hresolve : Path.resolve (some "..") session.cwd = absolute init := Path.resolve_parent h.spells hnames
  have hinit : segments (absolute init) = init :=
    Path.segments_of_spells (Or.inl rfl) fun n hn => (hnames n (List.mem_append_left _ hn)).1
  obtain ⟨children, hdir⟩ := h.directories init (List.prefix_append init [last])
  have hlookup : shell.files.lookup (Path.resolve (some "..") session.cwd) = some (.dir children) := by
    rw [hresolve, FileSystem.lookup_eq_descend hinit, hdir]
  rw [Shell.call_cd_of_dir hlookup, hresolve]

/-- two dots lead `cd` nowhere from the root -/
theorem Shell.call_cd_parent_root {shell : Shell} {session : Session} (h : Located shell.files session.cwd [])
    (hfiles : shell.files.rootEntry.NamesAll OrdinaryName) (net : Network) :
    ((shell.call session .cd [".."]).run net).result = ⟨session, 1, none⟩ := by
  have hcwd : session.cwd = "/" := by simpa [Spells, absolute] using h.spells
  have hresolve : Path.resolve (some "..") "/" = "/.." := by decide
  refine Shell.call_cd_of_none ?_ net
  rw [hcwd, hresolve]
  exact FileSystem.lookup_above_root hfiles

/-! ## After any lines -/

/--
**The working directory after any lines.** In a file system of ordinary names, lines run from a session at the root
keep the working directory the path of a chain of directories. From there a path of inert segments leads to the entry
that its names lead to, and `cd ..` goes to the parent, or fails and changes nothing at the root.
-/
theorem located_after_lines (shell : Shell) (hfiles : shell.files.rootEntry.NamesAll OrdinaryName) (env : Environment)
    (lines : List (String × Network)) :
    ∃ names, Located shell.files (shell.sessionAfter ⟨"/", env⟩ lines).cwd names ∧
      (∀ operand, (∀ n ∈ segments operand, Inert n.toList) →
        shell.files.lookup (Path.resolve (some operand) (shell.sessionAfter ⟨"/", env⟩ lines).cwd) =
          if FromRoot operand then shell.files.rootEntry.descend (segments operand)
          else (shell.files.rootEntry.descend names).bind (Entry.descend (segments operand))) ∧
      ∀ net, ((shell.call (shell.sessionAfter ⟨"/", env⟩ lines) .cd [".."]).run net).result =
        if names = [] then ⟨shell.sessionAfter ⟨"/", env⟩ lines, 1, none⟩
        else ⟨{ shell.sessionAfter ⟨"/", env⟩ lines with cwd := absolute names.dropLast }, 0,
          Site.page? (absolute names.dropLast)⟩ := by
  obtain ⟨names, h⟩ : ∃ names, Located shell.files (shell.sessionAfter ⟨"/", env⟩ lines).cwd names :=
    Shell.sessionAfter_inv (I := fun s => ∃ names, Located shell.files s.cwd names)
      (fun s line net => shell.execute_located s line net) ⟨[], Located.root shell.files⟩ lines
  refine ⟨names, h, ?_, ?_⟩
  · intro operand hinert
    rw [h.lookup_resolve hfiles hinert]
    split_ifs
    · rfl
    · exact Entry.descend_append names (segments operand) shell.files.rootEntry
  · intro net
    rcases List.eq_nil_or_concat names with rfl | ⟨init, last, rfl⟩
    · rw [if_pos rfl, Shell.call_cd_parent_root h hfiles]
    · rw [List.concat_eq_append] at h ⊢
      rw [if_neg (by simp), List.dropLast_concat, Shell.call_cd_parent h hfiles]

/-- lines that leave a slash behind the working directory, fail, go up and down again; a name and the way up from there -/
theorem located_after_lines_site :
    let shell : Shell := ⟨Site.files, .standard⟩
    let after := shell.sessionAfter ⟨"/", .ofList []⟩
      [("cd home//../usr/share/", .ofReplies []), ("cd nowhere", .ofReplies []), ("cd ../bin/", .ofReplies [])]
    Site.files.rootEntry.NamesAll OrdinaryName ∧ after.cwd = "/usr/bin/" ∧
      Site.files.lookup (Path.resolve (some "which") after.cwd) = some (.exec .which) ∧
      ((shell.call after .cd [".."]).run (.ofReplies [])).result = ⟨{ after with cwd := "/usr" }, 0, none⟩ := by
  intro shell after
  have hfiles : Site.files.rootEntry.NamesAll OrdinaryName := by decide +kernel
  have hcwd : after.cwd = "/usr/bin/" := by decide +kernel
  obtain ⟨names, h, hnames, hparent⟩ := located_after_lines shell hfiles (.ofList [])
    [("cd home//../usr/share/", .ofReplies []), ("cd nowhere", .ofReplies []), ("cd ../bin/", .ofReplies [])]
  obtain rfl : segments after.cwd = names := h.segments_eq hfiles
  have hsegments : segments after.cwd = ["usr", "bin"] := by
    rw [hcwd]
    decide
  refine ⟨hfiles, hcwd, ?_, ?_⟩
  · have hinert : ∀ n ∈ segments "which", Inert n.toList := by decide
    have hrelative : ¬FromRoot "which" := by decide
    rw [hnames "which" hinert, if_neg hrelative, hsegments]
    decide +kernel
  · have hup : absolute (segments after.cwd).dropLast = "/usr" := by
      rw [hsegments]
      decide
    have hbelow : segments after.cwd ≠ [] := by
      rw [hsegments]
      decide
    rw [hparent, if_neg hbelow, hup]
    rfl

end PageShell
