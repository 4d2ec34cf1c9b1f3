/-
Which files `cat` shows as images.

What stands behind the last dot of an operand decides, and a directory in front of a name has no say in it: a name with a
dot and one of the known endings behind it is that of an image, under every operand that ends in it
(`hasImageEnding_iff`). An operand without a dot is taken for an ending itself. So a file whose whole name is a known
ending is an image when it is named alone, and a text when a directory is named with it (`cat_shows_images`).
-/
import PageShell.Proofs.Shell.Sessions

namespace PageShell

open Text (cutAfterLast)
open Commands (imageEndings ending showsImage)

/-! ## Endings -/

namespace Commands

/-- some name with a dot and one of the endings of images behind it -/
def HasImageEnding (name : String) : Prop :=
  ∃ stem, ∃ ext ∈ imageEndings, name = stem ++ "." ++ ext

/-- no ending holds a dot or a slash -/
theorem ne_of_mem_imageEnding {ext : String} (h : ext ∈ imageEndings) {c : Char} (hc : c ∈ ext.toList) :
    c ≠ '.' ∧ c ≠ '/' := by
  have hall : imageEndings.all (fun ext => ext.toList.all fun c => c != '.' && c != '/') = true := by decide
  simpa using List.all_eq_true.1 (List.all_eq_true.1 hall ext h) c hc

theorem ending_append_dot (stem : String) {ext : String} (h : ∀ c ∈ ext.toList, c ≠ '.') :
    ending (stem ++ "." ++ ext) = ext := by
  have htext : (stem ++ "." ++ ext).toList = stem.toList ++ '.' :: ext.toList := by simp
  rw [ending, htext, Text.cutAfterLast_append_sep (by decide) stem.toList (by simpa using h), String.ofList_toList]

theorem ending_of_no_dot {name : String} (h : ∀ c ∈ name.toList, c ≠ '.') : ending name = name := by
  rw [ending, Text.cutAfterLast_of_none (by simpa using h), String.ofList_toList]

/-- the ending of a name stands behind a dot, or it is the whole name -/
theorem ending_cases (name : String) : ending name = name ∨ ∃ stem, name = stem ++ "." ++ ending name := by
  rcases Text.exists_last_sep (· == '.') name.toList with hnone | ⟨stem, c, ext, hname, hc, hext⟩
  · exact Or.inl (ending_of_no_dot (by simpa using hnone))
  · have hdot : c = '.' := by simpa using hc
    subst hdot
    refine Or.inr ⟨String.ofList stem, ?_⟩
    rw [ending, ← String.toList_inj, hname, Text.cutAfterLast_append_sep (by decide) stem hext]
    simp

theorem HasImageEnding.dot_mem {name : String} (h : HasImageEnding name) : '.' ∈ name.toList := by
  obtain ⟨stem, ext, -, rfl⟩ := h
  simp

theorem HasImageEnding.not_mem {name : String} (h : HasImageEnding name) : name ∉ imageEndings :=
  fun hmem => (ne_of_mem_imageEnding hmem h.dot_mem).1 rfl

/-- an operand names an image if it has one of the endings behind a dot, or is one of them -/
theorem showsImage_iff (operand : String) :
    showsImage operand = true ↔ HasImageEnding operand ∨ operand ∈ imageEndings := by
  rw [showsImage, List.contains_iff_mem]
  constructor
  · intro hmem
    rcases ending_cases operand with hwhole | ⟨stem, hstem⟩
    · exact Or.inr (hwhole ▸ hmem)
    · exact Or.inl ⟨stem, ending operand, hmem, hstem⟩
  · rintro (⟨stem, ext, hext, rfl⟩ | hmem)
    · rwa [ending_append_dot stem fun c hc => (ne_of_mem_imageEnding hext hc).1]
    · rwa [ending_of_no_dot fun c hc => (ne_of_mem_imageEnding hmem hc).1]

end Commands

/-- the last name on a path -/
def Path.EndsIn (path name : String) : Prop :=
  '/' ∉ name.toList ∧ (path = name ∨ ∃ directory, path = directory ++ "/" ++ name)

namespace Path

open Commands (HasImageEnding)

theorem EndsIn.cut {path name : String} (h : EndsIn path name) :
    (cutAfterLast isSlash path.toList).2 = name.toList := by
  obtain ⟨hslash, hpath⟩ := h
  have hwhole : Whole name.toList := whole_iff.2 hslash
  rcases hpath with rfl | ⟨directory, rfl⟩
  · rw [Text.cutAfterLast_of_none hwhole]
  · rw [cutAfterLast_slash directory hwhole]

/-- whether a path has an ending of images is up to the last name on it -/
theorem EndsIn.hasImageEnding_iff {path name : String} (h : EndsIn path name) :
    HasImageEnding path ↔ HasImageEnding name := by
  constructor
  · rintro ⟨stem, ext, hext, rfl⟩
    refine ⟨String.ofList (cutAfterLast isSlash stem.toList).2, ext, hext, ?_⟩
    have hnone : ∀ c ∈ '.' :: ext.toList, isSlash c = false := by
      refine List.forall_mem_cons.2 ⟨rfl, ?_⟩
      intro c hc
      simpa [isSlash] using (Commands.ne_of_mem_imageEnding hext hc).2
    have htext : (stem ++ "." ++ ext).toList = stem.toList ++ '.' :: ext.toList := by simp
    have hcut := h.cut
    rw [htext, Text.snd_cutAfterLast_append_of_none _ hnone] at hcut
    rw [← String.toList_inj, ← hcut]
    simp
  · rintro ⟨stem, ext, hext, rfl⟩
    rcases h.2 with rfl | ⟨directory, rfl⟩
    · exact ⟨stem, ext, hext, rfl⟩
    · exact ⟨directory ++ "/" ++ stem, ext, hext, by simp only [String.append_assoc]⟩

/-- a path with a slash on it is no ending -/
theorem EndsIn.mem_imageEndings_iff {path name : String} (h : EndsIn path name) :
    path ∈ imageEndings ↔ name ∈ imageEndings ∧ path = name := by
  constructor
  · intro hmem
    rcases h.2 with rfl | ⟨directory, rfl⟩
    · exact ⟨hmem, rfl⟩
    · exact absurd rfl (Commands.ne_of_mem_imageEnding hmem (c := '/') (by simp)).2
  · rintro ⟨hmem, rfl⟩
    exact hmem

end Path

/-! ## What `cat` writes -/

namespace Shell

variable {shell : Shell} {session : Session} {operand : String} {line : Line}

/-- with this operand `cat` succeeds and writes this line alone, whatever comes behind the operand -/
def CatShows (shell : Shell) (session : Session) (operand : String) (line : Line) : Prop :=
  ∀ rest net, (shell.call session .cat (operand :: rest)).run net = ⟨[.append line], [], .success session⟩

theorem CatShows.iff_eq (h : shell.CatShows session operand line) {other : Line} :
    shell.CatShows session operand other ↔ line = other := by
  constructor
  · intro hother
    have hrun := (h [] (.ofReplies [])).symm.trans (hother [] (.ofReplies []))
    simpa using hrun
  · rintro rfl
    exact h

theorem catShows_of_text {content : String}
    (h : shell.files.lookup (Path.resolve (some operand) session.cwd) = some (.text content)) :
    shell.CatShows session operand (if showsImage operand then .image content else .text content) := by
  intro rest net
  have hrun : Commands.cat ⟨shell, session⟩ (operand :: rest) =
      .ok (.lines [if showsImage operand then .image content else .text content]) := by
    simp [Commands.cat, Context.lookup, Context.resolve, h, Entry.text]
  rw [call, Builtin.run, hrun]
  rfl

/-- two operands that lead to one text show the same line if both show an image or neither does -/
theorem exists_catShows_iff {other content : String}
    (h : shell.files.lookup (Path.resolve (some operand) session.cwd) = some (.text content))
    (hother : shell.files.lookup (Path.resolve (some other) session.cwd) = some (.text content)) :
    (∃ line, shell.CatShows session operand line ∧ shell.CatShows session other line) ↔
      (showsImage operand = true ↔ showsImage other = true) := by
  simp only [(catShows_of_text h).iff_eq, (catShows_of_text hother).iff_eq, exists_eq_left']
  cases showsImage operand <;> cases showsImage other <;> simp

end Shell

open Commands (HasImageEnding)

/--
**Images are told by their names.** An operand that leads to a text file is shown as an image if its last name has one
of the endings of images behind a dot, or is such an ending and stands alone; else it is shown as a line of text. So two
operands that lead to one text and end in the same name show the same line, unless that name is an ending and just one
of the two has a directory in front of it.
-/
theorem cat_shows_images (shell : Shell) (session : Session) {operand name content : String}
    (hname : Path.EndsIn operand name)
    (hfile : shell.files.lookup (Path.resolve (some operand) session.cwd) = some (.text content)) :
    (shell.CatShows session operand (.image content) ↔
        HasImageEnding name ∨ name ∈ imageEndings ∧ operand = name) ∧
      (shell.CatShows session operand (.text content) ↔
        ¬(HasImageEnding name ∨ name ∈ imageEndings ∧ operand = name)) ∧
      ∀ other, Path.EndsIn other name →
        shell.files.lookup (Path.resolve (some other) session.cwd) = some (.text content) →
        ((∃ line, shell.CatShows session operand line ∧ shell.CatShows session other line) ↔
          (name ∈ imageEndings → (operand = name ↔ other = name))) := by
  have himage : ∀ {path}, Path.EndsIn path name →
      (showsImage path = true ↔ HasImageEnding name ∨ name ∈ imageEndings ∧ path = name) := by
    intro path hpath
    rw [Commands.showsImage_iff, hpath.hasImageEnding_iff, hpath.mem_imageEndings_iff]
  have hshows := Shell.catShows_of_text hfile
  refine ⟨?_, ?_, ?_⟩
  · rw [← himage hname, hshows.iff_eq]
    by_cases h : showsImage operand = true <;> simp [h]
  · rw [← himage hname, hshows.iff_eq]
    by_cases h : showsImage operand = true <;> simp [h]
  · intro other hother hsame
    rw [Shell.exists_catShows_iff hfile hsame, himage hname, himage hother]
    by_cases hmem : name ∈ imageEndings
    · have hnone : ¬HasImageEnding name := fun hending => hending.not_mem hmem
      simp [hmem, hnone]
    · simp [hmem]

/-- an ending behind two dots, a dot in the directory alone, and a name that is an ending, bare and behind `./` -/
theorem cat_shows_images_png :
    let files := FileSystem.ofChildren
      [("d.png", .dir [("a.tar.webp", .text "x"), ("notes", .text "x")]), ("png", .text "x")]
    let shell : Shell := ⟨files, .standard⟩
    let session : Session := ⟨"/", .ofList []⟩
    shell.CatShows session "d.png/a.tar.webp" (.image "x") ∧ shell.CatShows session "d.png/notes" (.text "x") ∧
      shell.CatShows session "png" (.image "x") ∧ shell.CatShows session "./png" (.text "x") ∧
      ¬∃ line, shell.CatShows session "png" line ∧ shell.CatShows session "./png" line := by
  intro files shell session
  have hfound : ∀ operand ∈ ["d.png/a.tar.webp", "d.png/notes", "png", "./png"],
      shell.files.lookup (Path.resolve (some operand) session.cwd) = some (.text "x") := by decide +kernel
  have hinside : ∀ name : String, '/' ∉ name.toList → Path.EndsIn ("d.png" ++ "/" ++ name) name :=
    fun name hname => ⟨hname, Or.inr ⟨"d.png", rfl⟩⟩
  have hbare : Path.EndsIn "png" "png" := ⟨by decide, Or.inl rfl⟩
  have hbehind : Path.EndsIn "./png" "png" := ⟨by decide, Or.inr ⟨".", rfl⟩⟩
  obtain ⟨hwebp, -, -⟩ := cat_shows_images shell session (hinside "a.tar.webp" (by decide)) (hfound _ (by decide))
  obtain ⟨-, hnotes, -⟩ := cat_shows_images shell session (hinside "notes" (by decide)) (hfound _ (by decide))
  obtain ⟨hpng, -, hsame⟩ := cat_shows_images shell session hbare (hfound _ (by decide))
  obtain ⟨-, hdotted, -⟩ := cat_shows_images shell session hbehind (hfound _ (by decide))
  refine ⟨hwebp.2 (Or.inl ⟨"a.tar", "webp", by decide, rfl⟩), hnotes.2 ?_, hpng.2 (Or.inr ⟨by decide, rfl⟩),
    hdotted.2 ?_, ?_⟩
  · rintro (hending | ⟨hmem, -⟩)
    · exact absurd hending.dot_mem (by decide)
    · exact absurd hmem (by decide)
  · rintro (hending | ⟨-, halone⟩)
    · exact absurd hending.dot_mem (by decide)
    · exact absurd halone (by decide)
  · rw [hsame "./png" hbehind (hfound _ (by decide))]
    decide

end PageShell
