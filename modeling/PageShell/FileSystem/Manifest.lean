/-
Manifests: a file system written as JSON.

A string is a text file and an object a directory. An object whose only member is `@exec` with a
string stands for an executable, as does an array of one string; an object whose only member is
`@base64` with a string stands for a file of bytes. `Node.ofJson?` finds out what a value stands
for, and `Node.toEntry` turns that into an entry, with the children of a directory in name order and
each before what follows it, so that it is the first offending entry that is reported.
-/
import PageShell.Base64
import PageShell.FileSystem.Basic
import PageShell.Json.Reader

namespace PageShell

/-- why a manifest is refused -/
inductive ManifestError where
  /-- the text is no JSON document -/
  | json (fault : Json.Fault)
  /-- something follows the document -/
  | trailing
  /-- a value stands for no entry -/
  | shape
  | rootNotDirectory
  | invalidName (name : String)
  | unknownCommand (path command : String)
  | binary (path : String) (fault : Base64.Fault)
  deriving DecidableEq, Repr

namespace ManifestError

/-- the wording of an error -/
def message : ManifestError → String
  | .json .truncated => "manifest ends too early"
  | .json .malformed | .trailing => "manifest is malformed"
  | .shape => "manifest holds a value that stands for no entry"
  | .rootNotDirectory => "manifest root must be a directory"
  | .invalidName name => "invalid entry name '" ++ name ++ "'"
  | .unknownCommand path command =>
    "'" ++ path ++ "' is bound to unknown command '" ++ command ++ "'"
  | .binary path fault => "'" ++ path ++ "' holds invalid base64 data: " ++ fault.message

end ManifestError

namespace Manifest

/-- what a value of a manifest stands for -/
inductive Node where
  | executable (command : String)
  | binary (base64 : String)
  | text (s : String)
  | directory (children : List (String × Node))
  deriving Repr

namespace Node

/-- the member name that marks an executable -/
def execKey : String := "@exec"

/-- the member name that marks a file of bytes -/
def base64Key : String := "@base64"

mutual

/-- what a value stands for; none if it, or a value inside it, has no valid shape -/
def ofJson? : Json.Value → Option Node
  | .string s => some (.text s)
  | .array [.string command] => some (.executable command)
  | .object [(key, .string s)] =>
    if key = execKey then some (.executable s)
    else if key = base64Key then some (.binary s)
    else some (.directory [(key, .text s)])
  | .object members => (membersOfJson? members).map fun ms => .directory (Keyed.ofList ms)
  | .array _ | .null | .bool _ | .number => none

/-- what the members of an object stand for, in the order in which they are written -/
def membersOfJson? : List (String × Json.Value) → Option (List (String × Node))
  | [] => some []
  | (key, v) :: rest => do
    let node ← ofJson? v
    let nodes ← membersOfJson? rest
    some ((key, node) :: nodes)

end

mutual

/-- the entry at `path` that a node stands for -/
def toEntry (path : String) : Node → Except ManifestError Entry
  | .text s => .ok (.text s)
  | .binary base64 =>
    match Base64.decode base64.toByteArray.data.toList with
    | .ok bytes => .ok (.binary bytes)
    | .error fault => .error (.binary path fault)
  | .executable command =>
    match Builtin.ofName? command with
    | some b => .ok (.exec b)
    | none => .error (.unknownCommand path command)
  | .directory children => do
    let entries ← toEntries path children
    .ok (.dir entries)

/-- the children of the directory at `path` that some nodes stand for -/
def toEntries (path : String) :
    List (String × Node) → Except ManifestError (List (String × Entry))
  | [] => .ok []
  | (name, node) :: rest =>
    if Path.isName name then do
      let entry ← toEntry (Path.child path name) node
      let entries ← toEntries path rest
      .ok ((name, entry) :: entries)
    else .error (.invalidName name)

end

/-! ## Order -/

mutual

/-- on every level the names are strictly increasing -/
def WellOrdered : Node → Prop
  | .directory children => Keyed.Ordered children ∧ AllWellOrdered children
  | .executable _ | .binary _ | .text _ => True

/-- every child is well-ordered -/
def AllWellOrdered : List (String × Node) → Prop
  | [] => True
  | (_, n) :: rest => WellOrdered n ∧ AllWellOrdered rest

end

theorem allWellOrdered_iff {cs : List (String × Node)} :
    AllWellOrdered cs ↔ ∀ p ∈ cs, WellOrdered p.2 := by
  induction cs with
  | nil => simp [AllWellOrdered]
  | cons p rest ih =>
    obtain ⟨n, e⟩ := p
    simp [AllWellOrdered, ih]

theorem allWellOrdered_ofList {pairs : List (String × Node)} (h : AllWellOrdered pairs) :
    AllWellOrdered (Keyed.ofList pairs) :=
  allWellOrdered_iff.2 fun p hp => allWellOrdered_iff.1 h p (Keyed.mem_ofList hp)

mutual

/-- what a value stands for is well-ordered -/
theorem wellOrdered_of_ofJson? : ∀ {v : Json.Value} {n : Node}, ofJson? v = some n → WellOrdered n
  | .object members, n, h => by
    unfold ofJson? at h
    split at h
    · simp_all
    · simp_all
    · split at h
      · cases h
        trivial
      · split at h
        · cases h
          trivial
        · cases h
          exact ⟨List.pairwise_singleton .., trivial, trivial⟩
    · rename_i ms heq hv
      cases hv
      obtain ⟨nodes, hn, rfl⟩ := Option.map_eq_some_iff.1 h
      exact ⟨Keyed.ordered_ofList _, allWellOrdered_ofList (allWellOrdered_of_membersOfJson? hn)⟩
    all_goals simp_all
  | .string _, n, h => by
    simp only [ofJson?, Option.some.injEq] at h
    subst h
    trivial
  | .array items, n, h => by
    unfold ofJson? at h
    split at h <;> simp_all
    subst h
    trivial
  | .null, _, h | .bool _, _, h | .number, _, h => by simp [ofJson?] at h

theorem allWellOrdered_of_membersOfJson? : ∀ {members : List (String × Json.Value)}
    {nodes : List (String × Node)}, membersOfJson? members = some nodes → AllWellOrdered nodes
  | [], nodes, h => by
    simp only [membersOfJson?, Option.some.injEq] at h
    subst h
    trivial
  | (key, v) :: rest, nodes, h => by
    simp only [membersOfJson?, Option.bind_eq_bind, Option.bind_eq_some_iff] at h
    obtain ⟨node, hv, nodes', hr, h⟩ := h
    cases h
    exact ⟨wellOrdered_of_ofJson? hv, allWellOrdered_of_membersOfJson? hr⟩

end

mutual

/-- a well-ordered node stands for a well-ordered entry -/
theorem wellOrdered_of_toEntry : ∀ {node : Node} {path : String} {e : Entry},
    WellOrdered node → toEntry path node = .ok e → e.WellOrdered
  | .directory children, path, e, hw, h => by
    simp only [toEntry] at h
    cases hc : toEntries path children with
    | error _ => simp [hc, bind, Except.bind] at h
    | ok es =>
      simp only [hc, bind, Except.bind, Except.ok.injEq] at h
      subst h
      obtain ⟨hnames, hall⟩ := wellOrdered_of_toEntries hw.2 hc
      exact ⟨Keyed.ordered_of_keys hnames hw.1, hall⟩
  | .text s, _, e, _, h => by
    simp only [toEntry, Except.ok.injEq] at h
    subst h
    trivial
  | .binary base64, _, e, _, h => by
    simp only [toEntry] at h
    split at h
    · cases h
      trivial
    · cases h
  | .executable command, _, e, _, h => by
    simp only [toEntry] at h
    split at h
    · cases h
      trivial
    · cases h

/-- the children keep their names, and each is well-ordered -/
theorem wellOrdered_of_toEntries : ∀ {nodes : List (String × Node)} {path : String}
    {es : List (String × Entry)}, AllWellOrdered nodes → toEntries path nodes = .ok es →
    es.map Prod.fst = nodes.map Prod.fst ∧ Entry.AllWellOrdered es
  | [], path, es, _, h => by
    simp only [toEntries, Except.ok.injEq] at h
    subst h
    exact ⟨rfl, trivial⟩
  | (name, node) :: rest, path, es, hw, h => by
    simp only [toEntries] at h
    split at h
    · cases he : toEntry (Path.child path name) node with
      | error _ => simp [he, bind, Except.bind] at h
      | ok e =>
        cases hr : toEntries path rest with
        | error _ => simp [he, hr, bind, Except.bind] at h
        | ok es' =>
          simp only [he, hr, bind, Except.bind, Except.ok.injEq] at h
          subst h
          obtain ⟨hnames, hall⟩ := wellOrdered_of_toEntries hw.2 hr
          exact ⟨by simp [hnames], wellOrdered_of_toEntry hw.1 he, hall⟩
    · cases h

end

end Node

/-! ## Loading -/

/-- the node that a text stands for -/
def parse (text : String) : Except ManifestError Node :=
  match Json.read text with
  | .error fault => .error (.json fault)
  | .ok document =>
    match Node.ofJson? document.value with
    | none => .error .shape
    | some node => if document.trailing then .error .trailing else .ok node

/-- every node that is read is well-ordered -/
theorem wellOrdered_of_parse {text : String} {node : Node} (h : parse text = .ok node) :
    node.WellOrdered := by
  unfold parse at h
  split at h
  · cases h
  · split at h
    · cases h
    · rename_i hn
      split at h
      · cases h
      · cases h
        exact Node.wellOrdered_of_ofJson? hn

/-- the file system that a manifest describes -/
def load (text : String) : Except ManifestError FileSystem :=
  match hp : parse text with
  | .error e => .error e
  | .ok (.directory children) =>
    match he : Node.toEntries "/" children with
    | .error e => .error e
    | .ok root =>
      have hw := wellOrdered_of_parse hp
      have hr := Node.wellOrdered_of_toEntries hw.2 he
      .ok ⟨root, Keyed.ordered_of_keys hr.1 hw.1, hr.2⟩
  | .ok _ => .error .rootNotDirectory

end Manifest

end PageShell
