/-
Going up.

Two dots do not take back one name each. A pass pairs two of them wherever three stand in a row, so a path with such a
run keeps names that it should lose, and `cd` with several levels of `..` goes up by one or by two, never by more
(`parents_take_back`). Where no three ever come to stand in a row, each `..` takes back just one name.
-/
import PageShell.Proofs.Path.Parents
import PageShell.Proofs.Shell.WorkingDirectory

namespace PageShell

open PageShell.Path (Spells OrdinaryName NameOrParent Crowded absolute resolve walk? cancel up)

/-- where several levels up lead from a working directory, the path of the directory at `names` -/
def Located.above (cwd : String) (names : List String) (levels : Nat) : String :=
  if levels % 2 = 1 then absolute names.dropLast
  else if cwd = absolute names then absolute names.dropLast.dropLast
  else cwd

theorem resolve_up_of_located {files : FileSystem} {cwd : String} {names : List String} (h : Located files cwd names)
    (hfiles : files.rootEntry.NamesAll OrdinaryName) {levels : Nat} (hpos : 0 < levels) (hle : levels ≤ names.length) :
    resolve (some (up levels)) cwd = Located.above cwd names levels := by
  have hnames := h.ordinary hfiles
  rcases h.spells with rfl | ⟨hne, rfl⟩
  · rw [Path.resolve_up hnames hpos hle, Located.above, if_pos rfl]
    exact apply_ite absolute _ _ _
  · have hslash : absolute names ++ "/" ≠ absolute names := by
      intro heq
      have hlength := congrArg String.length heq
      simp at hlength
    rw [Path.resolve_up_slash hnames hpos hne, Located.above, if_neg hslash]

/-- several levels up lead to a directory -/
theorem lookup_above {files : FileSystem} {cwd : String} {names : List String} (h : Located files cwd names)
    (hfiles : files.rootEntry.NamesAll OrdinaryName) (levels : Nat) :
    ∃ children, files.lookup (Located.above cwd names levels) = some (.dir children) := by
  have hnames : ∀ n ∈ names, Path.isName n = true := fun n hn => (h.ordinary hfiles n hn).1
  have habsolute : ∀ init, init <+: names → ∃ children, files.lookup (absolute init) = some (.dir children) := by
    intro init hinit
    obtain ⟨children, hdir⟩ := h.directories init hinit
    have hseg := Path.segments_of_spells (Or.inl rfl) fun n hn => hnames n (hinit.subset hn)
    exact ⟨children, by rw [FileSystem.lookup_eq_descend hseg, hdir]⟩
  unfold Located.above
  split_ifs
  · exact habsolute _ (List.dropLast_prefix names)
  · exact habsolute _ ((List.dropLast_prefix _).trans (List.dropLast_prefix names))
  · obtain ⟨children, hdir⟩ := h.directories names (List.prefix_refl names)
    exact ⟨children, by rw [FileSystem.lookup_eq_descend (h.segments_eq hfiles), hdir]⟩

/--
**Each `..` takes back at most one name.** A path of ordinary names and `..` that does not climb above the root resolves
to the path of some of its names, in their order. Of the names that are left when the `..` are read one by one none is
missing there, and there are no more just if three `..` do not stand in a row, at the start or after any number of times
that all names with a `..` right behind have been taken out with it. From a directory, `cd` with as many levels of `..`
as there are names, or fewer, goes up by one level if their number is odd. If it is even, `cd` goes up by two, and
nowhere from a working directory with a slash behind it. The bound is that of what fits into memory.
-/
theorem parents_take_back :
    (∀ (segs left : List String) (cwd : String), (∀ s ∈ segs, NameOrParent s) → walk? segs = some left →
      segs.length < 2 ^ 64 → ∃ names, resolve (some (absolute segs)) cwd = absolute names ∧
        (∀ n ∈ names, OrdinaryName n) ∧ left.Sublist names ∧ names.Sublist segs ∧
        (names = left ↔ ∀ i, ¬Crowded (cancel^[i] segs))) ∧
    ∀ (shell : Shell) (session : Session) (names : List String) (levels : Nat) (net : Network),
      shell.files.rootEntry.NamesAll OrdinaryName → Located shell.files session.cwd names → 0 < levels →
      levels ≤ names.length → ((shell.call session .cd [up levels]).run net).result =
        ⟨{ session with cwd := Located.above session.cwd names levels }, 0,
          Site.page? (Located.above session.cwd names levels)⟩ := by
  constructor
  · intro segs left cwd hsegs hwalk hlength
    have hnone := Path.parent_not_mem_iterate hsegs hwalk hlength
    obtain ⟨out, hout, hsub⟩ := Path.walk?_iterate_collapse hwalk Path.maxPasses
    rw [Path.walk?_names hnone, Option.some.injEq] at hout
    refine ⟨Path.collapse^[Path.maxPasses] segs, Path.resolve_segments hsegs cwd, ?_, hout ▸ hsub,
      Path.iterate_collapse_sublist Path.maxPasses segs, Path.iterate_collapse_eq_iff hwalk hnone⟩
    intro n hn
    refine (Path.nameOrParent_iterate hsegs Path.maxPasses n hn).ordinary ?_
    rintro rfl
    exact hnone hn
  · intro shell session names levels net hfiles h hpos hle
    have hresolve := resolve_up_of_located h hfiles hpos hle
    obtain ⟨children, hdir⟩ := lookup_above h hfiles levels
    rw [← hresolve] at hdir
    rw [Shell.call_cd_of_dir hdir, hresolve]

/-- the path of a chain of directories is a working directory -/
theorem Located.of_descend {files : FileSystem} {names : List String} {children : List (String × Entry)}
    (h : files.rootEntry.descend names = some (.dir children)) : Located files (absolute names) names where
  spells := Or.inl rfl
  directories _ hinit := Entry.dir_of_descend h hinit ⟨children, rfl⟩

/-- three `..` that stand in a row when the names between them are gone, and three levels up that lead up by one -/
theorem parents_take_back_thrice :
    (∀ s ∈ ["a", "b", "c", "d", "..", "..", "e", "..", "..", "f", "..", ".."], NameOrParent s) ∧
      walk? ["a", "b", "c", "d", "..", "..", "e", "..", "..", "f", "..", ".."] = some [] ∧
      (∃ names, resolve (some "/a/b/c/d/../../e/../../f/../..") "/" = absolute names ∧ absolute names = "/a/b" ∧
        names.Sublist ["a", "b", "c", "d", "..", "..", "e", "..", "..", "f", "..", ".."] ∧ names ≠ []) ∧
      ((Shell.call ⟨.ofChildren [("a", .dir [("b", .dir [("c", .dir [])])])], .standard⟩ ⟨"/a/b/c", .ofList []⟩ .cd
        ["../../.."]).run (.ofReplies [])).result.session.cwd = "/a/b" := by
  let segs := ["a", "b", "c", "d", "..", "..", "e", "..", "..", "f", "..", ".."]
  let files : FileSystem := .ofChildren [("a", .dir [("b", .dir [("c", .dir [])])])]
  have hsegs : ∀ s ∈ segs, NameOrParent s := by decide
  have hwalk : walk? segs = some [] := by decide
  have hpath : absolute segs = "/a/b/c/d/../../e/../../f/../.." := by decide
  have hcrowded : Crowded (cancel^[1] segs) := by decide
  have hfiles : files.rootEntry.NamesAll OrdinaryName := by decide
  have hdir : files.rootEntry.descend ["a", "b", "c"] = some (.dir []) := by decide
  have hcwd : absolute ["a", "b", "c"] = "/a/b/c" := by decide
  have hup : up 3 = "../../.." := by decide
  obtain ⟨names, hresolve, -, -, hsub, hiff⟩ := parents_take_back.1 segs [] "/" hsegs hwalk (by decide)
  have hcall := parents_take_back.2 ⟨files, .standard⟩ ⟨"/a/b/c", .ofList []⟩ ["a", "b", "c"] 3 (.ofReplies []) hfiles
    (hcwd ▸ Located.of_descend hdir) (by decide) (by decide)
  rw [hpath] at hresolve
  rw [hup] at hcall
  have hnames : absolute names = "/a/b" := by
    rw [← hresolve]
    decide +kernel
  refine ⟨hsegs, hwalk, ⟨names, hresolve, hnames, hsub, fun hnone => hiff.1 hnone 1 hcrowded⟩, ?_⟩
  rw [hcall]
  decide

/-- three `..` in a row take back one name, not three; so do three levels up -/
theorem three_parents_take_back_one :
    absolute ["a", "b", "c", "..", "..", ".."] = "/a/b/c/../../.." ∧
      (∀ s ∈ ["a", "b", "c", "..", "..", ".."], NameOrParent s) ∧
      walk? ["a", "b", "c", "..", "..", ".."] = some [] ∧
      resolve (some "/a/b/c/../../..") "/" = "/a/b" ∧ resolve (some "../../..") "/a/b/c" = "/a/b" ∧
      ¬∀ (segs left : List String) (cwd : String), (∀ s ∈ segs, NameOrParent s) → walk? segs = some left →
        resolve (some (absolute segs)) cwd = absolute left := by
  have hpath : absolute ["a", "b", "c", "..", "..", ".."] = "/a/b/c/../../.." := by decide
  have hsegs : ∀ s ∈ ["a", "b", "c", "..", "..", ".."], NameOrParent s := by decide
  have hwalk : walk? ["a", "b", "c", "..", "..", ".."] = some [] := by decide
  have hresolve : resolve (some "/a/b/c/../../..") "/" = "/a/b" := by decide
  refine ⟨hpath, hsegs, hwalk, hresolve, by decide, ?_⟩
  intro hall
  have hroot := hall _ _ "/" hsegs hwalk
  rw [hpath, hresolve] at hroot
  exact absurd hroot (by decide)

end PageShell
