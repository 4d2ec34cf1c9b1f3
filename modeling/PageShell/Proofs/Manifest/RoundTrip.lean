/-
A file system is loaded from what is written for it.

`Describes v e` says that the value `v` is a manifest of the entry `e`: a text file is a string, bytes are base64
behind `@base64`, an executable is the name of its command behind `@exec`, and a directory is an object of its children
in any order. An object with one member can be read in two ways, so a directory that holds just one text file of the
name `@exec` or `@base64` has no manifest (`Unambiguous`). Every other file system is loaded from every text of every
manifest of it (`load_described`). Nothing else is loaded but what has valid names (`namesAll_of_load`).
-/
import Mathlib.Data.List.Perm.Basic
import PageShell.Proofs.Base64.RoundTrip
import PageShell.Proofs.FileSystem.Descent
import PageShell.Proofs.Manifest.Shapes

namespace PageShell

open Json (Value)

/-! ## Manifests of an entry -/

mutual

/-- the manifests of an entry -/
inductive Describes : Value → Entry → Prop
  | text (s : String) : Describes (.string s) (.file (.text s))
  | binary (bytes : List UInt8) :
      Describes (.object [("@base64", .string (Base64.written bytes))]) (.file (.binary bytes))
  | exec (b : Builtin) : Describes (.object [("@exec", .string b.name)]) (.exec b)
  | dir {members : List (String × Value)} {listed children : List (String × Entry)}
      (h : DescribesAll members listed) (horder : listed.Perm children) : Describes (.object members) (.dir children)

/-- each member is a manifest of the child in its place, under the same name -/
inductive DescribesAll : List (String × Value) → List (String × Entry) → Prop
  | nil : DescribesAll [] []
  | cons {n : String} {v : Value} {e : Entry} {members : List (String × Value)} {children : List (String × Entry)}
      (h : Describes v e) (hs : DescribesAll members children) : DescribesAll ((n, v) :: members) ((n, e) :: children)

end

namespace Entry

/-- no directory consists of one text file whose name marks an executable or bytes -/
inductive Unambiguous : Entry → Prop
  | dir {children : List (String × Entry)}
      (hone : ∀ s, children ≠ [("@exec", .text s)] ∧ children ≠ [("@base64", .text s)])
      (h : ∀ p ∈ children, Unambiguous p.2) : Unambiguous (.dir children)
  | file (c : Content) : Unambiguous (.file c)
  | exec (b : Builtin) : Unambiguous (.exec b)

theorem allNamesAll_iff {P : String → Prop} {children : List (String × Entry)} :
    AllNamesAll P children ↔ ∀ p ∈ children, P p.1 ∧ NamesAll P p.2 := by
  induction children with
  | nil => simp [AllNamesAll]
  | cons p rest ih =>
    obtain ⟨n, e⟩ := p
    simp [AllNamesAll, ih, and_assoc]

/-- an entry that can be written into a manifest -/
structure Writable (e : Entry) : Prop where
  ordered : e.WellOrdered
  names : e.NamesAll ValidName
  unambiguous : e.Unambiguous

theorem Writable.child {children : List (String × Entry)} (h : Writable (.dir children)) {p : String × Entry}
    (hp : p ∈ children) : ValidName p.1 ∧ Writable p.2 := by
  obtain ⟨⟨-, hordered⟩, hnames, hunambiguous⟩ := h
  obtain ⟨hname, hchild⟩ := allNamesAll_iff.1 hnames p hp
  cases hunambiguous with
  | dir _ hall => exact ⟨hname, allWellOrdered_iff.1 hordered p hp, hchild, hall p hp⟩

end Entry

/-- a directory whose manifest has a special form is ambiguous -/
theorem directoryMembers_of_describesAll {members : List (String × Value)} {listed children : List (String × Entry)}
    (h : DescribesAll members listed) (horder : listed.Perm children)
    (hone : ∀ s, children ≠ [("@exec", Entry.text s)] ∧ children ≠ [("@base64", Entry.text s)]) :
    Manifest.DirectoryMembers members := by
  have hsingle : ∀ key s, members = [(key, .string s)] → children = [(key, .text s)] := by
    rintro key s rfl
    cases h with
    | cons hv hs =>
      cases hv
      cases hs
      exact (List.singleton_perm.1 horder).symm
  exact fun s => ⟨fun heq => (hone s).1 (hsingle _ s heq), fun heq => (hone s).2 (hsingle _ s heq)⟩

namespace Manifest

/-! ## From a manifest to its entry -/

/-- a node under the name of a child that stands for that child -/
def StandsFor (path : String) (child : String × Entry) (node : String × Node) : Prop :=
  node.1 = child.1 ∧ node.2.toEntry (Path.child path child.1) = .ok child.2

theorem toEntries_of_forall₂ {path : String} {children : List (String × Entry)} {nodes : List (String × Node)}
    (h : List.Forall₂ (StandsFor path) children nodes) (hnames : ∀ p ∈ children, ValidName p.1) :
    Node.toEntries path nodes = .ok children := by
  induction h with
  | nil => rfl
  | @cons child node children nodes hfirst _ ih =>
    obtain ⟨name, e⟩ := child
    obtain ⟨key, node⟩ := node
    obtain ⟨rfl, he⟩ := hfirst
    obtain ⟨hname, hrest⟩ := List.forall_mem_cons.1 hnames
    rw [Node.toEntries, if_pos (validName_iff.1 hname), he, ih hrest]
    rfl

theorem keys_of_forall₂ {path : String} {children : List (String × Entry)} {nodes : List (String × Node)}
    (h : List.Forall₂ (StandsFor path) children nodes) : nodes.map Prod.fst = children.map Prod.fst := by
  induction h with
  | nil => rfl
  | cons hfirst _ ih => rw [List.map_cons, List.map_cons, hfirst.1, ih]

theorem entries_of_directory {path : String} {children : List (String × Node)} {e : Entry}
    (h : (Node.directory children).toEntry path = .ok e) :
    ∃ entries, e = .dir entries ∧ Node.toEntries path children = .ok entries := by
  rw [Node.toEntry] at h
  cases hentries : Node.toEntries path children with
  | error _ =>
    rw [hentries] at h
    cases h
  | ok entries =>
    rw [hentries] at h
    cases h
    exact ⟨entries, rfl, rfl⟩

/-- only the node of a directory stands for a directory -/
theorem directory_of_toEntry {path : String} {node : Node} {entries : List (String × Entry)}
    (h : node.toEntry path = .ok (.dir entries)) :
    ∃ children, node = .directory children ∧ Node.toEntries path children = .ok entries := by
  cases node with
  | directory children =>
    obtain ⟨es, heq, hes⟩ := entries_of_directory h
    cases heq
    exact ⟨children, rfl, hes⟩
  | text s => cases h
  | binary base64 =>
    rw [Node.toEntry] at h
    split at h <;> cases h
  | executable command =>
    rw [Node.toEntry] at h
    split at h <;> cases h

mutual

/-- the node of a manifest stands for the entry that it is a manifest of -/
theorem toEntry_of_describes : ∀ {v : Value} {e : Entry}, Describes v e → e.Writable → ∀ path : String,
    ∃ node, Node.ofJson? v = some node ∧ node.toEntry path = .ok e
  | _, _, .text s, _, _ => ⟨.text s, rfl, rfl⟩
  | _, _, .binary bytes, _, path => by
    refine ⟨.binary (Base64.written bytes), rfl, ?_⟩
    simp only [Node.toEntry, Base64.decode_written]
    rfl
  | _, _, .exec b, _, path => by
    refine ⟨.executable b.name, rfl, ?_⟩
    simp only [Node.toEntry, Builtin.ofName?_name]
  | .object members, .dir children, .dir h horder, hwritable, path => by
    have hone : Manifest.DirectoryMembers members := by
      cases hwritable.unambiguous with
      | dir hone _ => exact directoryMembers_of_describesAll h horder hone
    obtain ⟨nodes, hnodes, hstands⟩ :=
      toEntries_of_describesAll h (fun p hp => (hwritable.child (horder.mem_iff.1 hp)).2) path
    -- the nodes in the order of the children are what the members are put into
    obtain ⟨sorted, hsorted, hperm⟩ := List.perm_comp_forall₂ horder.symm hstands
    have hordered : Keyed.Ordered sorted := Keyed.ordered_of_keys (keys_of_forall₂ hsorted) hwritable.ordered.1
    refine ⟨.directory sorted, ?_, ?_⟩
    · rw [Node.ofJson?_directory hone, hnodes, Option.map_some, Keyed.ofList_of_perm hordered hperm.symm]
    · have hentries := toEntries_of_forall₂ hsorted fun p hp => (hwritable.child hp).1
      rw [Node.toEntry, hentries]
      rfl

theorem toEntries_of_describesAll : ∀ {members : List (String × Value)} {listed : List (String × Entry)},
    DescribesAll members listed → (∀ p ∈ listed, p.2.Writable) → ∀ path : String,
    ∃ nodes, Node.membersOfJson? members = some nodes ∧ List.Forall₂ (StandsFor path) listed nodes
  | _, _, .nil, _, _ => ⟨[], rfl, .nil⟩
  | (n, _) :: _, _, .cons h hs, hwritable, path => by
    obtain ⟨hfirst, hrest⟩ := List.forall_mem_cons.1 hwritable
    obtain ⟨node, hnode, hentry⟩ := toEntry_of_describes h hfirst (Path.child path n)
    obtain ⟨nodes, hnodes, hstands⟩ := toEntries_of_describesAll hs hrest path
    refine ⟨(n, node) :: nodes, ?_, .cons ⟨rfl, hentry⟩ hstands⟩
    simp only [Node.membersOfJson?, hnode, hnodes]
    rfl

end

/-- what the node of a text stands for is loaded from the text -/
theorem load_of_toEntry {text : String} {node : Node} {fs : FileSystem} (hparse : parse text = .ok node)
    (hentry : node.toEntry "/" = .ok fs.rootEntry) : load text = .ok fs := by
  obtain ⟨children, rfl, hchildren⟩ := directory_of_toEntry hentry
  obtain ⟨loaded, hload, hroot⟩ := load_of_entries hparse hchildren
  have hsame : loaded = fs := by
    cases loaded
    cases fs
    cases hroot
    rfl
  rw [hload, hsame]

/--
**A file system is loaded from every manifest of it.** The names are valid and no directory is ambiguous; the members
of an object may stand in any order, and the text may be any text of the manifest that nests at most 127 deep.
-/
theorem load_described (fs : FileSystem) (hnames : fs.rootEntry.NamesAll ValidName)
    (hunambiguous : fs.rootEntry.Unambiguous) {v : Value} (hv : Describes v fs.rootEntry) {text : String}
    (htext : Json.DocumentText v text) (hdepth : v.depth ≤ 127) : load text = .ok fs := by
  obtain ⟨node, hnode, hentry⟩ := toEntry_of_describes hv ⟨fs.wellOrdered, hnames, hunambiguous⟩ "/"
  exact load_of_toEntry (parse_of_node hnode htext hdepth) hentry

/-- a directory of a marking name, and members that are not in the order of the names -/
theorem load_described_marked :
    load "\x7b\"a\" :\"\\u000A\",\"@exec\":\x7b \x7d\x7d" =
      .ok (.ofChildren [("@exec", .dir []), ("a", .text "\n")]) := by
  have hv : Describes (.object [("a", .string "\n"), ("@exec", .object [])])
      (FileSystem.ofChildren [("@exec", .dir []), ("a", .text "\n")]).rootEntry :=
    .dir (.cons (.text "\n") (.cons (.dir .nil .nil) .nil)) (List.Perm.swap ..)
  have hunambiguous : (FileSystem.ofChildren [("@exec", .dir []), ("a", .text "\n")]).rootEntry.Unambiguous := by
    have hroot : (FileSystem.ofChildren [("@exec", .dir []), ("a", .text "\n")]).rootEntry =
        .dir [("@exec", .dir []), ("a", .text "\n")] := rfl
    rw [hroot]
    refine .dir (by simp) (List.forall_mem_cons.2 ⟨.dir (by simp) (by simp), List.forall_mem_cons.2 ⟨.file _, ?_⟩⟩)
    simp
  have htext : Json.DocumentText (.object [("a", .string "\n"), ("@exec", .object [])])
      "\x7b\"a\" :\"\\u000A\",\"@exec\":\x7b \x7d\x7d" := by
    have hunit : Json.UnitText '\n'.toNat ['0', '0', '0', 'A'] :=
      @Json.UnitText.digits '0' '0' '0' 'A' 0 0 0 10 (.inl rfl) (.inl rfl) (.inl rfl) (.inr rfl)
    have hbody : Json.CharsText "\n".toList ['\\', 'u', '0', '0', '0', 'A'] := Json.CharsText.cons (.unit hunit) .nil
    have hline : Json.StringText "\n" ['"', '\\', 'u', '0', '0', '0', 'A', '"'] := .quoted hbody
    have ha : Json.StringText "a" ['"', 'a', '"'] := .plain (by decide)
    have hexec : Json.StringText "@exec" ['"', '@', 'e', 'x', 'e', 'c', '"'] := .plain (by decide)
    have hfirst : Json.MemberText ("a", .string "\n")
        ['"', 'a', '"', ' ', ':', '"', '\\', 'u', '0', '0', '0', 'A', '"'] :=
      @Json.MemberText.named _ _ [] _ [' '] _ (by decide) ha (by decide) (.bare (.string hline))
    have hsecond : Json.MemberText ("@exec", .object [])
        ['"', '@', 'e', 'x', 'e', 'c', '"', ':', '\x7b', ' ', '\x7d'] :=
      .bare hexec (.bare (@Json.ValueText.emptyObject [' '] (by decide)))
    exact .bare (.object (.cons hfirst (.last hsecond)))
  exact load_described _ (by decide +kernel) hunambiguous hv htext (by decide)

/-! ## The names of what is loaded -/

theorem toEntries_cons_eq_ok {path name : String} {node : Node} {rest : List (String × Node)}
    {entries : List (String × Entry)} (h : Node.toEntries path ((name, node) :: rest) = .ok entries) :
    ValidName name ∧ ∃ e es, node.toEntry (Path.child path name) = .ok e ∧ Node.toEntries path rest = .ok es ∧
      entries = (name, e) :: es := by
  rw [Node.toEntries] at h
  split at h
  · rename_i hname
    cases he : node.toEntry (Path.child path name) with
    | error _ =>
      rw [he] at h
      cases h
    | ok e =>
      cases hes : Node.toEntries path rest with
      | error _ =>
        rw [he, hes] at h
        cases h
      | ok es =>
        rw [he, hes] at h
        cases h
        exact ⟨validName_iff.2 hname, e, es, rfl, rfl, rfl⟩
  · cases h

mutual

theorem namesAll_of_toEntry : ∀ {node : Node} {path : String} {e : Entry}, node.toEntry path = .ok e →
    e.NamesAll ValidName
  | .directory _, _, _, h => by
    obtain ⟨entries, rfl, hentries⟩ := entries_of_directory h
    exact allNamesAll_of_toEntries hentries
  | .text _, _, _, h => by
    cases h
    trivial
  | .binary _, _, _, h => by
    rw [Node.toEntry] at h
    split at h <;> cases h
    trivial
  | .executable _, _, _, h => by
    rw [Node.toEntry] at h
    split at h <;> cases h
    trivial

theorem allNamesAll_of_toEntries : ∀ {nodes : List (String × Node)} {path : String} {entries : List (String × Entry)},
    Node.toEntries path nodes = .ok entries → Entry.AllNamesAll ValidName entries
  | [], _, _, h => by
    cases h
    trivial
  | (_, _) :: _, _, _, h => by
    obtain ⟨hname, e, es, he, hes, rfl⟩ := toEntries_cons_eq_ok h
    exact ⟨hname, namesAll_of_toEntry he, allNamesAll_of_toEntries hes⟩

end

/-- whatever is loaded has valid names only -/
theorem namesAll_of_load {text : String} {files : FileSystem} (h : load text = .ok files) :
    files.rootEntry.NamesAll ValidName := by
  cases hparse : parse text with
  | error e =>
    rw [load_of_parse_error hparse] at h
    cases h
  | ok node =>
    cases node with
    | directory children =>
      cases hchildren : Node.toEntries "/" children with
      | error e =>
        rw [load_of_entries_error hparse hchildren] at h
        cases h
      | ok root =>
        obtain ⟨loaded, hload, hroot⟩ := load_of_entries hparse hchildren
        rw [hload] at h
        cases h
        have hall : Entry.AllNamesAll ValidName files.root := hroot ▸ allNamesAll_of_toEntries hchildren
        exact hall
    | text _ | binary _ | executable _ =>
      rw [load_of_no_directory hparse (by simp)] at h
      cases h

end Manifest

end PageShell
