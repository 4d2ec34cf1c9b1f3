/-
Every entry of a loaded file system has one path.

`Entry.Leads e names e'` says that names lead from an entry down to another one, each of them the name of a child of the
directory before it. Looking up follows just these chains (`lookup_iff_leads`), along the parts of the path between
slashes (`segments_eq_parts`). What is loaded has only names that are not empty and hold no slash, so that a chain that
leads to an entry is read off its path again (`segments_of_leads`). `Addressed` collects what follows for entries and
paths, and every loaded file system is addressed (`addressed_of_load`).
-/
import PageShell.Proofs.Manifest.RoundTrip

namespace PageShell

namespace Path

/-- the parts of a path between slashes, without the empty ones -/
def parts (path : String) : List String :=
  ((path.toList.splitOn '/').filter (· ≠ [])).map String.ofList

theorem segments_eq_parts (path : String) : segments path = parts path := by
  have hfilter : ∀ s : List Char, (!s.isEmpty) = decide (s ≠ []) := by
    intro s
    cases s <;> rfl
  have hslash : isSlash = (· == '/') := rfl
  rw [segments, parts, Text.fields, hslash, Text.toList_split_eq_splitOn, List.filter_congr fun s _ => hfilter s]

end Path

namespace Entry

/-! ## Chains of names -/

/-- names lead from an entry to another one, each as the name of a child of the directory before it -/
inductive Leads : Entry → List String → Entry → Prop
  | here (e : Entry) : Leads e [] e
  | inside {children : List (String × Entry)} {name : String} {child e : Entry} {names : List String}
      (hmem : (name, child) ∈ children) (h : Leads child names e) : Leads (.dir children) (name :: names) e

theorem descend_of_leads {e e' : Entry} {names : List String} (hleads : e.Leads names e') (h : e.WellOrdered) :
    e.descend names = some e' := by
  induction hleads with
  | here e => exact descend_nil e
  | @inside children name child e' names hmem _ ih =>
    calc (Entry.dir children).descend (name :: names)
      _ = (Keyed.find? name children).bind (descend names) := descend_cons_dir name names children
      _ = child.descend names := by rw [Keyed.find?_of_mem h.1 hmem, Option.bind_some]
      _ = some e' := ih (allWellOrdered_iff.1 h.2 _ hmem)

theorem leads_of_descend {e e' : Entry} {names : List String} (h : e.descend names = some e') : e.Leads names e' := by
  induction names generalizing e with
  | nil =>
    rw [descend_nil, Option.some.injEq] at h
    exact h ▸ .here e
  | cons name names ih =>
    obtain ⟨children, child, rfl, hfind, hrest⟩ := descend_cons_eq_some h
    exact .inside (Keyed.find?_mem hfind) (ih hrest)

/-- no name leads on from a file or an executable -/
theorem descend_of_not_isDir {e : Entry} (h : e.isDir = false) (names : List String) :
    e.descend names = if names = [] then some e else none := by
  cases names with
  | nil => simp
  | cons name names =>
    cases e with
    | dir children => cases h
    | file c => rfl
    | exec b => rfl

end Entry

namespace FileSystem

variable {files : FileSystem}

/-! ## Looking up -/

/-- a path finds what its segments lead to from the root -/
theorem lookup_iff_leads {path : String} {e : Entry} :
    files.lookup path = some e ↔ files.rootEntry.Leads (Path.segments path) e :=
  ⟨Entry.leads_of_descend, fun h => Entry.descend_of_leads h files.wellOrdered⟩

/-- a directory is a file system of its own, in which the paths below it are looked up -/
theorem exists_lookup_below {p : String} {children : List (String × Entry)}
    (h : files.lookup p = some (.dir children)) :
    ∃ inner : FileSystem, inner.root = children ∧ ∀ q, files.lookup (p ++ "/" ++ q) = inner.lookup q := by
  refine ⟨⟨children, Entry.wellOrdered_of_descend files.wellOrdered h⟩, rfl, ?_⟩
  intro q
  rw [lookup_below, h]
  rfl

/-- which entries of a file system are found under which paths -/
structure Addressed (files : FileSystem) : Prop where
  /-- an entry is found under the path of the names that lead to it -/
  found {names : List String} {e : Entry} (h : files.rootEntry.Leads names e) :
    files.lookup (Path.absolute names) = some e
  /-- different chains of names that lead to entries have different paths -/
  distinct {a b : List String} {e e' : Entry} (ha : files.rootEntry.Leads a e) (hb : files.rootEntry.Leads b e')
    (hne : a ≠ b) : Path.absolute a ≠ Path.absolute b
  /-- any path finds what its parts lead to, and nothing else -/
  finds_iff (path : String) (e : Entry) : files.lookup path = some e ↔ files.rootEntry.Leads (Path.parts path) e
  /-- below a path that finds nothing, nothing is found -/
  below_missing {p : String} (h : files.lookup p = none) (q : String) : files.lookup (p ++ "/" ++ q) = none
  /-- below a directory, a path finds what it finds in that directory -/
  below_directory {p : String} {children : List (String × Entry)} (h : files.lookup p = some (.dir children)) :
    ∃ inner : FileSystem, inner.root = children ∧ ∀ q, files.lookup (p ++ "/" ++ q) = inner.lookup q
  /-- below a file or an executable, nothing is found by a path with a part -/
  below_leaf {p : String} {e : Entry} (h : files.lookup p = some e) (hleaf : e.isDir = false) (q : String) :
    files.lookup (p ++ "/" ++ q) = if Path.parts q = [] then some e else none

end FileSystem

namespace Manifest

open FileSystem (lookup_iff_leads)

variable {text : String} {files : FileSystem} {names : List String} {e : Entry}

/-- the names that lead to a loaded entry are the segments of the path that they spell -/
theorem segments_of_leads (hload : load text = .ok files) (h : files.rootEntry.Leads names e) :
    Path.segments (Path.absolute names) = names := by
  have hdescend : files.rootEntry.descend names = some e := Entry.descend_of_leads h files.wellOrdered
  have hvalid : ∀ n ∈ names, ValidName n := (Entry.namesAll_of_descend (namesAll_of_load hload) hdescend).1
  exact Path.segments_of_spells (Or.inl rfl) fun n hn => validName_iff.1 (hvalid n hn)

/--
**Each entry of a loaded file system has a path of its own.** It is found under the path of the names that lead to it,
which is the path of no other chain of names; a path finds an entry just if its parts between slashes lead to it; and
what stands behind a slash is looked up in the directory that stands before it.
-/
theorem addressed_of_load (hload : load text = .ok files) : files.Addressed where
  found := by
    intro names e h
    rw [lookup_iff_leads, segments_of_leads hload h]
    exact h
  distinct := by
    intro a b e e' ha hb hne heq
    have hsegments : Path.segments (Path.absolute a) = Path.segments (Path.absolute b) := congrArg Path.segments heq
    rw [segments_of_leads hload ha, segments_of_leads hload hb] at hsegments
    exact hne hsegments
  finds_iff path e := by
    rw [lookup_iff_leads, Path.segments_eq_parts]
  below_missing := by
    intro p h q
    rw [FileSystem.lookup_below, h, Option.bind_none]
  below_directory := FileSystem.exists_lookup_below
  below_leaf := by
    intro p e h hleaf q
    rw [FileSystem.lookup_below, h, Option.bind_some, Entry.descend_of_not_isDir hleaf, Path.segments_eq_parts]

/-- a file two levels down, more slashes than needed, and a path that leads through a file -/
theorem addressed_of_load_nested :
    ∃ files, load "\x7b\"b\":\"\",\"a\":\x7b\"b\":\x7b\"c\":\"x\"\x7d\x7d\x7d" = .ok files ∧
      files.lookup (Path.absolute ["a", "b", "c"]) = some (.text "x") ∧ files.lookup "a//b/c/" = some (.text "x") ∧
      files.lookup ("/b" ++ "/" ++ "c") = none ∧ files.lookup ("/b" ++ "/" ++ "/") = some (.text "") := by
  have hload : load "\x7b\"b\":\"\",\"a\":\x7b\"b\":\x7b\"c\":\"x\"\x7d\x7d\x7d" =
      .ok (.ofChildren [("a", .dir [("b", .dir [("c", .text "x")])]), ("b", .text "")]) := by decide +kernel
  have haddressed := addressed_of_load hload
  have hbelow := (haddressed.finds_iff "a//b/c/" (.text "x")).2 (Entry.leads_of_descend rfl)
  have hfile := (haddressed.finds_iff "/b" (.text "")).2 (Entry.leads_of_descend rfl)
  exact ⟨_, hload, haddressed.found (Entry.leads_of_descend rfl), hbelow, haddressed.below_leaf hfile rfl "c",
    haddressed.below_leaf hfile rfl "/"⟩

end Manifest

end PageShell
