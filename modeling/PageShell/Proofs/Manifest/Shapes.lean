/-
What the values of a manifest stand for.

`Command`, `Payload` and `DirectoryMembers` tell the special forms of a value apart from the directories, and
`ValidShape` says which values stand for an entry at all. `Node.ofJson?` agrees with them form by form, and it has a
node for exactly the values of valid shape (`ofJson?_isSome`). Loading is reduced to the reading of the text, the node
of its value and the entries of that node (`load_eq_ok` and its neighbours).
-/
import PageShell.FileSystem.Manifest
import PageShell.Proofs.Json.Reading
import PageShell.Proofs.Keyed

namespace PageShell

open Json (Value)

/-- a text that can stand as a name: not empty, and without a slash -/
def ValidName (n : String) : Prop :=
  n ≠ "" ∧ '/' ∉ n.toList

instance (n : String) : Decidable (ValidName n) := inferInstanceAs (Decidable (_ ∧ _))

theorem validName_iff {n : String} : ValidName n ↔ Path.isName n = true := by
  simp only [ValidName, Path.isName, Path.isSlash, Bool.and_eq_true, Bool.not_eq_true', String.isEmpty_eq_false_iff,
    ne_eq, List.any_eq_false, beq_iff_eq]
  constructor
  · rintro ⟨hne, hslash⟩
    refine ⟨hne, fun c hc heq => hslash ?_⟩
    rwa [← heq]
  · rintro ⟨hne, hslash⟩
    exact ⟨hne, fun hmem => hslash '/' hmem rfl⟩

/-- the errors of a manifest that is no document, or in which a value stands for no entry -/
def ManifestError.IsJson : ManifestError → Prop
  | .json _ | .trailing | .shape => True
  | .rootNotDirectory | .invalidName _ | .unknownCommand _ _ | .binary _ _ => False

namespace Manifest

/-! ## The forms of a value -/

/-- a value that stands for an executable of `command` -/
inductive Command (command : String) : Value → Prop
  | member : Command command (.object [("@exec", .string command)])
  | item : Command command (.array [.string command])

/-- a value that stands for the bytes that `base64` holds -/
inductive Payload (base64 : String) : Value → Prop
  | member : Payload base64 (.object [("@base64", .string base64)])

theorem Command.not_payload {c b : String} {v : Value} (hc : Command c v) : ¬Payload b v := by
  intro hb
  have hbase : v = .object [("@base64", .string b)] := by
    cases hb
    rfl
  have hexec : v = .object [("@exec", .string c)] ∨ v = .array [.string c] := by
    cases hc
    · exact .inl rfl
    · exact .inr rfl
  subst hbase
  simp at hexec

/-- the members of an object that stands for a directory: any but those of the two special forms -/
def DirectoryMembers (members : List (String × Value)) : Prop :=
  ∀ s, members ≠ [("@exec", .string s)] ∧ members ≠ [("@base64", .string s)]

/-- values that stand for an entry, and so do all values in them -/
inductive ValidShape : Value → Prop
  | text (s : String) : ValidShape (.string s)
  | command {c : String} {v : Value} (h : Command c v) : ValidShape v
  | payload {b : String} {v : Value} (h : Payload b v) : ValidShape v
  | directory {members : List (String × Value)} (h : ∀ p ∈ members, ValidShape p.2) : ValidShape (.object members)

/-- an object is of a special form, or it stands for a directory -/
theorem object_cases (members : List (String × Value)) :
    (∃ c, Command c (.object members)) ∨ (∃ b, Payload b (.object members)) ∨ DirectoryMembers members := by
  by_cases hexec : ∃ s, members = [("@exec", .string s)]
  · obtain ⟨s, rfl⟩ := hexec
    exact .inl ⟨s, .member⟩
  · by_cases hbase : ∃ s, members = [("@base64", .string s)]
    · obtain ⟨s, rfl⟩ := hbase
      exact .inr (.inl ⟨s, .member⟩)
    · exact .inr (.inr fun s => ⟨fun h => hexec ⟨s, h⟩, fun h => hbase ⟨s, h⟩⟩)

theorem DirectoryMembers.not_command {members : List (String × Value)} (h : DirectoryMembers members) (c : String) :
    ¬Command c (.object members) := by
  rintro ⟨⟩
  exact (h c).1 rfl

theorem DirectoryMembers.not_payload {members : List (String × Value)} (h : DirectoryMembers members) (b : String) :
    ¬Payload b (.object members) := by
  rintro ⟨⟩
  exact (h b).2 rfl

/-! ## Nodes -/

namespace Node

theorem ofJson?_command {c : String} {v : Value} (h : Command c v) : ofJson? v = some (.executable c) := by
  cases h <;> rfl

theorem ofJson?_payload {b : String} {v : Value} (h : Payload b v) : ofJson? v = some (.binary b) := by
  cases h
  rfl

theorem ofJson?_directory {members : List (String × Value)} (h : DirectoryMembers members) :
    ofJson? (.object members) = (membersOfJson? members).map fun ms => .directory (Keyed.ofList ms) := by
  unfold ofJson?
  split
  · simp_all
  · simp_all
  · rename_i key s heq
    cases heq
    have hexec : key ≠ execKey := by
      rintro rfl
      exact (h s).1 rfl
    have hbase : key ≠ base64Key := by
      rintro rfl
      exact (h s).2 rfl
    rw [if_neg hexec, if_neg hbase]
    rfl
  · rename_i heq
    cases heq
    rfl
  all_goals simp_all

/-- the nodes of some members are the nodes of their values, under the same names -/
theorem membersOfJson?_eq_some {members : List (String × Value)} {nodes : List (String × Node)} :
    membersOfJson? members = some nodes ↔ Keyed.Related (fun v node => ofJson? v = some node) members nodes := by
  unfold Keyed.Related
  induction members generalizing nodes with
  | nil => simp [membersOfJson?, eq_comm]
  | cons m rest ih =>
    obtain ⟨key, v⟩ := m
    simp only [membersOfJson?, Option.bind_eq_bind, Option.bind_eq_some_iff, Option.some.injEq]
    constructor
    · rintro ⟨node, hnode, nodes, hnodes, rfl⟩
      exact .cons ⟨rfl, hnode⟩ (ih.1 hnodes)
    · intro h
      cases h with
      | @cons _ n _ nodes hn hrest =>
        obtain ⟨k, node⟩ := n
        obtain ⟨rfl, hnode⟩ := hn
        exact ⟨node, hnode, nodes, ih.2 hrest, rfl⟩

theorem exists_membersOfJson?_iff (members : List (String × Value)) :
    (∃ nodes, membersOfJson? members = some nodes) ↔ ∀ p ∈ members, ∃ node, ofJson? p.2 = some node := by
  induction members with
  | nil => exact ⟨by simp, fun _ => ⟨[], rfl⟩⟩
  | cons m rest ih =>
    obtain ⟨key, v⟩ := m
    rw [List.forall_mem_cons, ← ih]
    simp only [membersOfJson?, Option.bind_eq_bind, Option.bind_eq_some_iff, Option.some.injEq]
    constructor
    · rintro ⟨_, node, hnode, nodes, hnodes, -⟩
      exact ⟨⟨node, hnode⟩, nodes, hnodes⟩
    · rintro ⟨⟨node, hnode⟩, nodes, hnodes⟩
      exact ⟨_, node, hnode, nodes, hnodes, rfl⟩

theorem ofJson?_array {items : List Value} {node : Node} (h : ofJson? (.array items) = some node) :
    ∃ c, Command c (.array items) := by
  unfold ofJson? at h
  split at h <;> simp_all
  exact ⟨_, .item⟩

/-- a value has a node just if its shape is valid -/
theorem exists_ofJson?_iff (v : Value) : (∃ node, ofJson? v = some node) ↔ ValidShape v := by
  induction v using Value.induct with
  | null => exact ⟨fun ⟨_, h⟩ => (nomatch h), fun h => nomatch h⟩
  | bool b => exact ⟨fun ⟨_, h⟩ => (nomatch h), fun h => nomatch h⟩
  | number => exact ⟨fun ⟨_, h⟩ => (nomatch h), fun h => nomatch h⟩
  | string s => exact ⟨fun _ => .text s, fun _ => ⟨_, rfl⟩⟩
  | array items ih =>
    constructor
    · rintro ⟨node, h⟩
      obtain ⟨c, hc⟩ := ofJson?_array h
      exact .command hc
    · intro h
      cases h with
      | command h => exact ⟨_, ofJson?_command h⟩
      | payload h => cases h
  | object members ih =>
    rcases object_cases members with ⟨c, hc⟩ | ⟨b, hb⟩ | hdir
    · exact ⟨fun _ => .command hc, fun _ => ⟨_, ofJson?_command hc⟩⟩
    · exact ⟨fun _ => .payload hb, fun _ => ⟨_, ofJson?_payload hb⟩⟩
    · rw [ofJson?_directory hdir]
      constructor
      · rintro ⟨node, h⟩
        obtain ⟨nodes, hnodes, -⟩ := Option.map_eq_some_iff.1 h
        have hall := (exists_membersOfJson?_iff members).1 ⟨nodes, hnodes⟩
        exact .directory fun p hp => (ih p hp).1 (hall p hp)
      · intro h
        cases h with
        | command h => exact absurd h (hdir.not_command _)
        | payload h => exact absurd h (hdir.not_payload _)
        | directory hall =>
          obtain ⟨nodes, hnodes⟩ := (exists_membersOfJson?_iff members).2 fun p hp => (ih p hp).2 (hall p hp)
          exact ⟨_, Option.map_eq_some_iff.2 ⟨nodes, hnodes, rfl⟩⟩

/-- no number stands in a value of valid shape -/
theorem numberFree_of_validShape {v : Value} (h : ValidShape v) : v.NumberFree := by
  induction h with
  | text s => exact .string s
  | command h =>
    cases h with
    | member => exact .object (by simpa using Value.NumberFree.string _)
    | item => exact .array (by simpa using Value.NumberFree.string _)
  | payload h =>
    cases h
    exact .object (by simpa using Value.NumberFree.string _)
  | directory _ ih => exact .object ih

end Node

/-! ## Loading -/

variable {text : String}

theorem parse_of_node {v : Value} {node : Node} (hnode : Node.ofJson? v = some node)
    (htext : Json.DocumentText v text) (hdepth : v.depth ≤ Json.maxDepth) : parse text = .ok node := by
  have hvalid : ValidShape v := (Node.exists_ofJson?_iff v).1 ⟨node, hnode⟩
  unfold parse
  rw [Json.read_document htext hdepth (Node.numberFree_of_validShape hvalid)]
  simp only [hnode]
  rfl

theorem parse_of_invalid {v : Value} (hinvalid : ¬ValidShape v) (htext : Json.DocumentText v text)
    (hdepth : v.depth ≤ Json.maxDepth) : ∃ e, parse text = .error e ∧ e.IsJson := by
  have hnone : Node.ofJson? v = none := by
    cases hv : Node.ofJson? v with
    | none => rfl
    | some node => exact absurd ((Node.exists_ofJson?_iff v).1 ⟨node, hv⟩) hinvalid
  unfold parse
  rcases Json.read_document_or htext hdepth with hread | ⟨-, hread⟩
  · rw [hread]
    simp only [hnone]
    exact ⟨.shape, rfl, trivial⟩
  · rw [hread]
    exact ⟨.json .malformed, rfl, trivial⟩

theorem load_of_parse_error {e : ManifestError} (h : parse text = .error e) : load text = .error e := by
  unfold load
  split <;> simp_all

theorem load_of_no_directory {node : Node} (h : parse text = .ok node)
    (hnode : ∀ children, node ≠ .directory children) : load text = .error .rootNotDirectory := by
  unfold load
  split
  · simp_all
  · rename_i children heq
    rw [h] at heq
    cases heq
    exact absurd rfl (hnode children)
  · rfl

theorem load_of_entries_error {children : List (String × Node)} {e : ManifestError}
    (h : parse text = .ok (.directory children)) (he : Node.toEntries "/" children = .error e) :
    load text = .error e := by
  unfold load
  split
  · simp_all
  · rename_i heq
    rw [h] at heq
    cases heq
    split <;> simp_all
  · simp_all

theorem load_of_entries {children : List (String × Node)} {root : List (String × Entry)}
    (h : parse text = .ok (.directory children)) (he : Node.toEntries "/" children = .ok root) :
    ∃ fs, load text = .ok fs ∧ fs.root = root := by
  unfold load
  split
  · simp_all
  · rename_i heq
    rw [h] at heq
    cases heq
    split
    · simp_all
    · rename_i entries heq
      rw [he] at heq
      cases heq
      exact ⟨_, rfl, rfl⟩
  · simp_all

end Manifest

end PageShell
