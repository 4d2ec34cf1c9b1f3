/-
Operands with segments of one dot.

In front of a slash a dot stands for the directory that is reached so far, and leaving it out changes nothing. Behind the
last slash it is the name of an entry like any other, and where no entry has that name, `ls .`, `cd .`, `cat .` and
`tree a/.` fail (`dots_between_slashes`).
-/
import PageShell.Proofs.Path.Dots
import PageShell.Proofs.Shell.WorkingDirectory

namespace PageShell

open PageShell.Path (Spells OrdinaryName FromRoot EndsInDot absolute segments resolve startsWithParent withoutDots)

theorem Path.Spells.fromRoot {path : String} {names : List String} (h : Spells path names) : FromRoot path := by
  rcases h with rfl | ⟨-, rfl⟩
  · simp [FromRoot, absolute]
  · simp [FromRoot, absolute]

/-- an operand that leads nowhere makes each command fail that looks for an entry -/
theorem Shell.call_of_lookup_none {shell : Shell} {session : Session} {operand : String}
    (h : shell.files.lookup (resolve (some operand) session.cwd) = none) {b : Builtin}
    (hb : b ∈ [Builtin.ls, .cd, .cat, .tree]) (net : Network) :
    ((shell.call session b [operand]).run net).result = ⟨session, 1, none⟩ := by
  rw [Shell.result_call]
  simp only [List.mem_cons, List.not_mem_nil, or_false] at hb
  rcases hb with rfl | rfl | rfl | rfl
  · simp [Builtin.run, Process.run, Commands.ls, Context.lookup, Context.resolve, h, Outcome.ofResult, ShellError.status]
  · simp [Builtin.run, Process.run, Commands.cd, Context.lookup, Context.resolve, h, Outcome.ofResult, ShellError.status]
  · simp [Builtin.run, Process.run, Commands.cat, Context.lookup, Context.resolve, h, Outcome.ofResult, ShellError.status]
  · simp [Builtin.run, Process.run, Commands.tree, Context.lookup, Context.resolve, h, Outcome.ofResult,
      ShellError.status]

/-- where no entry is called `.`, that name leads nowhere -/
theorem Entry.descend_dot {e : Entry} (h : e.NamesAll (· ≠ ".")) (names : List String) :
    e.descend (names ++ ["."]) = none := by
  cases hd : e.descend (names ++ ["."]) with
  | none => rfl
  | some e' => exact absurd rfl ((Entry.namesAll_of_descend h hd).1 "." (by simp))

/--
**Dots between slashes.** From a working directory with ordinary names, an operand of ordinary names and dots leads where
it leads without its dots, provided that a slash stands behind each dot. If a dot stands behind the last slash, the operand
leads on to the entry of that name; where no entry is called `.`, each command that looks for an entry fails on it and
changes nothing. The bound is that of what fits into memory.
-/
theorem dots_between_slashes (shell : Shell) (session : Session) (names : List String) (operand : String)
    (hcwd : Spells session.cwd names) (hnames : ∀ n ∈ names, OrdinaryName n)
    (hoperand : ∀ n ∈ segments operand, startsWithParent n.toList = false)
    (hcount : (segments operand).count "." < 2 ^ 64) :
    let found := fun path => shell.files.lookup (resolve (some path) session.cwd)
    found (withoutDots operand) = shell.files.rootEntry.descend
        ((if FromRoot operand then [] else names) ++ (segments operand).filter (· ≠ ".")) ∧
      (¬EndsInDot operand → found operand = found (withoutDots operand)) ∧
      (EndsInDot operand → found operand = (found (withoutDots operand)).bind (Entry.descend ["."])) ∧
      (EndsInDot operand → shell.files.rootEntry.NamesAll (· ≠ ".") →
        ∀ b ∈ [Builtin.ls, .cd, .cat, .tree], ∀ net,
          ((shell.call session b [operand]).run net).result = ⟨session, 1, none⟩) := by
  intro found
  have hseg : segments session.cwd = names := Path.segments_of_spells hcwd fun n hn => (hnames n hn).1
  have hinert : ∀ n ∈ segments session.cwd, Path.Inert n.toList := fun n hn => (hnames n (hseg ▸ hn)).2
  have hplain := Path.segments_resolve_withoutDots hinert hoperand
  have hresolve : segments (resolve (some operand) session.cwd) =
      segments (resolve (some (withoutDots operand)) session.cwd) ++ if EndsInDot operand then ["."] else [] := by
    rw [Path.segments_resolve_dots hcwd.fromRoot hinert hoperand hcount, hplain]
  have hdotted : EndsInDot operand → segments (resolve (some operand) session.cwd) =
      segments (resolve (some (withoutDots operand)) session.cwd) ++ ["."] := by
    intro hdot
    rw [hresolve, if_pos hdot]
  refine ⟨?_, ?_, ?_, ?_⟩
  · rw [hseg] at hplain
    exact FileSystem.lookup_eq_descend hplain shell.files
  · intro hdot
    rw [if_neg hdot, List.append_nil] at hresolve
    exact FileSystem.lookup_eq_descend hresolve shell.files
  · intro hdot
    exact (FileSystem.lookup_eq_descend (hdotted hdot) shell.files).trans (Entry.descend_append _ _ _)
  · intro hdot hfiles b hb net
    refine Shell.call_of_lookup_none ?_ hb net
    rw [FileSystem.lookup_eq_descend (hdotted hdot)]
    exact Entry.descend_dot hfiles _

/-- rows of dots that are dropped from an operand, and the dot that makes `ls .` fail where `ls` succeeds -/
theorem dots_between_slashes_home :
    let shell : Shell := ⟨Site.files, .standard⟩
    let session := Session.start Site.home Site.environment
    let found := fun path => shell.files.lookup (resolve (some path) session.cwd)
    Spells session.cwd ["home", "autumn"] ∧ withoutDots "./././blog/././" = "blog" ∧
      found "./././blog/././" = found "blog" ∧ found "blog" ≠ none ∧
      EndsInDot "." ∧ ((shell.call session .ls ["."]).run (.ofReplies [])).result = ⟨session, 1, none⟩ ∧
      ((shell.call session .ls []).run (.ofReplies [])).result = ⟨session, 0, none⟩ := by
  intro shell session found
  have hcwd : Spells session.cwd ["home", "autumn"] := Or.inl (by decide)
  have hplain : withoutDots "./././blog/././" = "blog" := by decide
  have hfiles : shell.files.rootEntry.NamesAll (· ≠ ".") := by decide +kernel
  have hdot : EndsInDot "." := by decide
  obtain ⟨-, hblog, -, -⟩ := dots_between_slashes shell session _ "./././blog/././" hcwd (by decide) (by decide) (by decide)
  obtain ⟨-, -, -, hfails⟩ := dots_between_slashes shell session _ "." hcwd (by decide) (by decide) (by decide)
  replace hblog := hblog (by decide)
  rw [hplain] at hblog
  exact ⟨hcwd, hplain, hblog, by decide +kernel, hdot, hfails hdot hfiles .ls (by decide) _, by decide +kernel⟩

end PageShell
