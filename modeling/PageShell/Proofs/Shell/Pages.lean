/-
Which directories open a page.

`cd` compares the path that it goes to with the directories of the site's pages, letter by letter. However an operand is
spelled, a path that leads through the names of such a directory is resolved to one of two texts, and the one with a
slash behind it opens nothing. Completing an operand puts just that slash there (`pages_of_directories`).
-/
import PageShell.Proofs.Shell.CompletedLines
import PageShell.Proofs.Shell.Endings

namespace PageShell

open PageShell.Path (Spells absolute segments)

/-! ## The directories of the pages -/

namespace Site

/-- each directory of a page is the path of a chain of names, and has a page of its own -/
theorem page?_of_mem_pages : ∀ t ∈ pages, page? t.1 = some t.2 ∧ t.1 = absolute (segments t.1) := by decide

/-- no directory of a page is spelled with a slash behind it -/
theorem page?_slash (directory : String) : page? (directory ++ "/") = none := by
  have hbare : ∀ t ∈ pages, t.1.toList.getLast? ≠ some '/' := by decide
  cases h : page? (directory ++ "/") with
  | none => rfl
  | some url => exact absurd (by simp) (hbare (directory ++ "/", url) (mem_pages_of_page? h))

theorem page?_eq_none {path : String} (h : ∀ t ∈ pages, segments path ≠ segments t.1) : page? path = none := by
  cases hpage : page? path with
  | none => rfl
  | some url => exact absurd rfl (h (path, url) (mem_pages_of_page? hpage))

/-- a resolved path that leads through the names of a page's directory is spelled in one of two ways -/
theorem page?_resolve {operand cwd : String} (hoperand : operand ≠ "") {t : String × String} (ht : t ∈ pages)
    (h : segments (Path.resolve (some operand) cwd) = segments t.1) :
    Path.resolve (some operand) cwd = t.1 ∧ page? (Path.resolve (some operand) cwd) = some t.2 ∨
      Path.resolve (some operand) cwd = t.1 ++ "/" ∧ page? (Path.resolve (some operand) cwd) = none := by
  obtain ⟨hpage, hdirectory⟩ := page?_of_mem_pages t ht
  obtain ⟨names, hspells, hnames⟩ := Path.resolve_spells hoperand cwd
  have hsame : names = segments t.1 := by rw [← h, Path.segments_of_spells hspells hnames]
  rw [hsame, Spells, ← hdirectory] at hspells
  rcases hspells with hbare | ⟨-, hslash⟩
  · exact Or.inl ⟨hbare, by rw [hbare, hpage]⟩
  · exact Or.inr ⟨hslash, by rw [hslash, page?_slash]⟩

end Site

/-! ## Lines that run `cd` -/

/-- an operand with a slash behind it is resolved to a path with a slash behind it -/
theorem Path.resolve_slash (directory cwd : String) :
    ∃ path, resolve (some (directory ++ "/")) cwd = path ++ "/" := by
  obtain ⟨path, hpath⟩ := Path.resolve_append directory cwd
  exact ⟨path, by simpa using hpath "" Path.carried_empty⟩

theorem Text.ne_empty_of_mem_words {line w : String} (h : w ∈ words line) : w ≠ "" := by
  obtain ⟨s, hs, rfl⟩ := List.mem_map.1 h
  simpa using (List.mem_filter.1 hs).2

/-- where a line goes that runs `cd`: where its first operand leads, or home -/
def cdOperand (line : String) : String :=
  (Text.words line).tail.head?.getD Site.home

theorem cdOperand_ne_empty (line : String) : cdOperand line ≠ "" := by
  unfold cdOperand
  cases h : (Text.words line).tail with
  | nil => decide
  | cons operand rest =>
    have hmem : operand ∈ Text.words line := List.mem_of_mem_tail (by rw [h]; exact List.mem_cons_self)
    exact Text.ne_empty_of_mem_words hmem

/-- a line that runs `cd` goes where its operand leads, and opens the page of that path, or fails -/
theorem Shell.execute_cd {shell : Shell} {session : Session} {line : String}
    (h : shell.commandOf? session line = some .cd) (net : Network)
    (hstatus : ((shell.execute session line).run net).result.status = 0) :
    let path := Path.resolve (some (cdOperand line)) session.cwd
    ((shell.execute session line).run net).result = ⟨{ session with cwd := path }, 0, Site.page? path⟩ := by
  intro path
  have hrun : ((Builtin.cd.run ⟨shell, session⟩ (Text.words line).tail).run net).result =
      Commands.cd ⟨shell, session⟩ (Text.words line).tail := by
    rw [Builtin.run, Process.run]
  rw [Shell.execute_of_commandOf? h, Shell.result_call, hrun] at hstatus ⊢
  unfold Commands.cd at hstatus ⊢
  dsimp only at hstatus ⊢
  split at hstatus
  · rfl
  · cases hstatus
  · cases hstatus
  · cases hstatus

/--
**Pages of directories.** Let a line run `cd` with success. If the new working directory leads through the names of the
directory of a page, it is spelled like that directory, and the page is opened, or it has a slash behind it, and no page
is opened. Any other directory opens none. So an operand with a slash behind it never opens a page, not even where the
operand without it does.
-/
theorem pages_of_directories (shell : Shell) (session : Session) (line : String) (net : Network)
    (hcd : shell.commandOf? session line = some .cd) :
    let o := ((shell.execute session line).run net).result
    o.status = 0 →
      (∀ t ∈ Site.pages, segments o.session.cwd = segments t.1 →
        o.session.cwd = t.1 ∧ o.page = some t.2 ∨ o.session.cwd = t.1 ++ "/" ∧ o.page = none) ∧
      ((∀ t ∈ Site.pages, segments o.session.cwd ≠ segments t.1) → o.page = none) ∧
      ∀ directory, (Text.words line)[1]? = some (directory ++ "/") → o.page = none := by
  intro o hstatus
  have ho : o = _ := Shell.execute_cd hcd net hstatus
  have hcwd : o.session.cwd = Path.resolve (some (cdOperand line)) session.cwd := by rw [ho]
  have hpage : o.page = Site.page? (Path.resolve (some (cdOperand line)) session.cwd) := by rw [ho]
  refine ⟨?_, ?_, ?_⟩
  · intro t ht hseg
    rw [hcwd] at hseg
    rw [hcwd, hpage]
    exact Site.page?_resolve (cdOperand_ne_empty line) ht hseg
  · intro hother
    rw [hpage]
    apply Site.page?_eq_none
    rwa [← hcwd]
  · intro directory hsecond
    have hoperand : cdOperand line = directory ++ "/" := by
      rw [cdOperand, List.head?_tail, hsecond, Option.getD_some]
    obtain ⟨path, hpath⟩ := Path.resolve_slash directory session.cwd
    rw [hpage, hoperand, hpath, Site.page?_slash]

/-- an odd spelling that opens a page, and the line that Tab makes of `cd pro`, which opens none -/
theorem pages_of_directories_completed :
    let shell : Shell := ⟨Site.files, .standard⟩
    let session := Session.start Site.home Site.environment
    let outcome := fun line => ((shell.execute session line).run (.ofReplies [])).result
    (outcome "cd .//../autumn/./blog").page = some "/blog" ∧
      shell.complete session.cwd "cd pro" = .single "cd projects/" ∧
      segments (outcome "cd projects/").session.cwd = segments "/home/autumn/projects" ∧
      (outcome "cd projects/").page = none := by
  intro shell session outcome
  obtain ⟨hblog, -, -⟩ := pages_of_directories shell session "cd .//../autumn/./blog" (.ofReplies [])
    (by decide +kernel) (by decide +kernel)
  obtain ⟨-, -, hslash⟩ := pages_of_directories shell session "cd projects/" (.ofReplies [])
    (by decide +kernel) (by decide +kernel)
  refine ⟨?_, by decide +kernel, by decide +kernel, hslash "projects" (by decide +kernel)⟩
  rcases hblog ("/home/autumn/blog", "/blog") (by decide) (by decide +kernel) with ⟨-, hpage⟩ | ⟨hcwd, -⟩
  · exact hpage
  · exact absurd hcwd (by decide +kernel)

end PageShell
