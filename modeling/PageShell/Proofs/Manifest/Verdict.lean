/-
Which manifests are accepted, and which error is reported.

A manifest is accepted if every value has a valid shape, the root is a directory and no node is at fault. Else the error
is that of the document, that of the root, or the first fault (`load_verdict`). What converting a value comes to is
proved by induction on the value (`settles_toEntry`), and for the members of one directory, which are converted up to
the first fault, by induction on their list (`settles_toEntries`).
-/
import PageShell.Proofs.Manifest.Faults
import PageShell.Proofs.Path.Spelling

namespace PageShell

namespace Builtin

theorem name_of_ofName? {c : String} {b : Builtin} (h : ofName? c = some b) : b.name = c := by
  simpa using List.find?_some h

theorem name_ne_of_ofName? {c : String} (h : ofName? c = none) (b : Builtin) : b.name ≠ c := by
  simpa using List.find?_eq_none.1 h b (mem_all b)

end Builtin

namespace Manifest

open Json (Value)

/-! ## One value -/

/-- nothing is below a value that is no directory, so only the value itself can be at fault -/
theorem settles_leaf {α : Type} {base : List String} {v : Value} {r : Except ManifestError α}
    (hleaf : ∀ names w, NodeAt v names w → names = [] ∧ w = v)
    (h : match r with
      | .ok _ => ∀ e, ¬Refused base v e
      | .error e => Refused base v e) : Settles (FaultAt base v) r := by
  cases r with
  | ok a =>
    rintro names e ⟨w, hat, hrefused⟩
    obtain ⟨rfl, rfl⟩ := hleaf names w hat
    rw [List.append_nil] at hrefused
    exact h e hrefused
  | error e =>
    refine ⟨[], ⟨v, .here v, ?_⟩, fun names' e' _ => not_before_nil names'⟩
    rw [List.append_nil]
    exact h

/-- under valid names it is the value that is refused -/
theorem refused_cases {base : List String} (hbase : ∀ n ∈ base, ValidName n) {v : Value} {e : ManifestError}
    (h : Refused base v e) :
    (∃ c, Command c v ∧ (∀ b : Builtin, b.name ≠ c) ∧ e = .unknownCommand (Path.absolute base) c) ∨
      ∃ base64 fault, Payload base64 v ∧ Base64.decode base64.toByteArray.data.toList = .error fault ∧
        e = .binary (Path.absolute base) fault := by
  cases h with
  | name hnames hname =>
    subst hnames
    exact absurd (hbase _ (by simp)) hname
  | command _ hv hunknown => exact .inl ⟨_, hv, hunknown, rfl⟩
  | payload _ hv hfault => exact .inr ⟨_, _, hv, hfault, rfl⟩

theorem last_valid {base : List String} (hbase : ∀ n ∈ base, ValidName n) (n : String)
    (h : base.getLast? = some n) : ValidName n :=
  hbase n (List.mem_of_getLast? h)

theorem settles_text {base : List String} (hbase : ∀ n ∈ base, ValidName n) (s : String) :
    Settles (FaultAt base (.string s)) (Node.toEntry (Path.absolute base) (.text s)) := by
  refine settles_leaf ?_ ?_
  · intro names w hat
    cases hat
    exact ⟨rfl, rfl⟩
  · intro e hrefused
    rcases refused_cases hbase hrefused with ⟨c, hv, -, -⟩ | ⟨base64, fault, hv, -, -⟩
    · cases hv
    · cases hv

theorem settles_command {base : List String} (hbase : ∀ n ∈ base, ValidName n) {c : String} {v : Value}
    (hv : Command c v) : Settles (FaultAt base v) (Node.toEntry (Path.absolute base) (.executable c)) := by
  refine settles_leaf ?_ ?_
  · intro names w hat
    cases hat with
    | here => exact ⟨rfl, rfl⟩
    | inside hdir => exact absurd hv (hdir.not_command c)
  · rw [Node.toEntry]
    cases hb : Builtin.ofName? c with
    | some b =>
      intro e hrefused
      rcases refused_cases hbase hrefused with ⟨c', hv', hunknown, -⟩ | ⟨base64, fault, hv', -, -⟩
      · have hsame : c' = c := by
          cases hv <;> cases hv' <;> rfl
        exact hunknown b (hsame ▸ Builtin.name_of_ofName? hb)
      · exact hv.not_payload hv'
    | none => exact .command (last_valid hbase) hv (Builtin.name_ne_of_ofName? hb)

theorem settles_payload {base : List String} (hbase : ∀ n ∈ base, ValidName n) {base64 : String} {v : Value}
    (hv : Payload base64 v) : Settles (FaultAt base v) (Node.toEntry (Path.absolute base) (.binary base64)) := by
  refine settles_leaf ?_ ?_
  · intro names w hat
    cases hat with
    | here => exact ⟨rfl, rfl⟩
    | inside hdir => exact absurd hv (hdir.not_payload base64)
  · rw [Node.toEntry]
    cases hbytes : Base64.decode base64.toByteArray.data.toList with
    | ok bytes =>
      intro e hrefused
      rcases refused_cases hbase hrefused with ⟨c, hv', -, -⟩ | ⟨base64', fault, hv', hfault, -⟩
      · exact hv'.not_payload hv
      · have hsame : base64' = base64 := by
          cases hv
          cases hv'
          rfl
        rw [hsame, hbytes] at hfault
        cases hfault
    | error fault => exact .payload (last_valid hbase) hv hbytes

/-! ## The children of a directory -/

/-- a fault of one of the members that are kept of a directory, or below it -/
def FaultAmong (base : List String) (kept : List (String × Value)) (names : List String) (e : ManifestError) : Prop :=
  ∃ p ∈ kept, ∃ rest, names = p.1 :: rest ∧ FaultAt (base ++ [p.1]) p.2 rest e

/-- what is at fault in a directory is one of its members, or below it -/
theorem faultAt_directory {base : List String} (hbase : ∀ n ∈ base, ValidName n) {members : List (String × Value)}
    (hdir : DirectoryMembers members) (names : List String) (e : ManifestError) :
    FaultAt base (.object members) names e ↔ FaultAmong base (Keyed.ofList members) names e := by
  constructor
  · rintro ⟨w, hat, hrefused⟩
    cases hat with
    | here =>
      rw [List.append_nil] at hrefused
      rcases refused_cases hbase hrefused with ⟨c, hv, -, -⟩ | ⟨base64, fault, hv, -, -⟩
      · exact absurd hv (hdir.not_command c)
      · exact absurd hv (hdir.not_payload base64)
    | @inside _ key child _ rest _ hkept hat =>
      refine ⟨(key, child), Keyed.mem_ofList_iff.2 hkept, rest, rfl, w, hat, ?_⟩
      rwa [List.append_assoc]
  · rintro ⟨⟨key, child⟩, hmem, rest, rfl, w, hat, hrefused⟩
    refine ⟨w, .inside hdir (Keyed.mem_ofList_iff.1 hmem) hat, ?_⟩
    rwa [List.append_assoc] at hrefused

theorem settles_congr {α : Type} {faults faults' : List String → ManifestError → Prop} {r : Except ManifestError α}
    (h : ∀ names e, faults names e ↔ faults' names e) (hr : Settles faults r) : Settles faults' r := by
  have heq : faults = faults' := funext fun names => funext fun e => propext (h names e)
  exact heq ▸ hr

/-- a fault of the first member comes before those of the members behind it -/
theorem first_among_head {base : List String} {key : String} {v : Value} {rest : List (String × Value)}
    (hkey : ∀ p ∈ rest, key < p.1) {names : List String} {e : ManifestError}
    (h : First (FaultAt (base ++ [key]) v) names e) :
    First (FaultAmong base ((key, v) :: rest)) (key :: names) e := by
  refine ⟨⟨(key, v), List.mem_cons_self, names, rfl, h.1⟩, ?_⟩
  rintro names' e' ⟨p, hp, tail, rfl, hfault⟩
  rcases List.mem_cons.1 hp with rfl | hp
  · exact not_before_cons key (h.2 tail e' hfault)
  · exact not_before_of_lt (hkey p hp) names tail

/-- where the first member is without fault, the first fault is that of the members behind it -/
theorem settles_among_tail {α : Type} {base : List String} {key : String} {v : Value} {rest : List (String × Value)}
    (hnone : ∀ names e, ¬FaultAt (base ++ [key]) v names e) {r : Except ManifestError α}
    (h : Settles (FaultAmong base rest) r) : Settles (FaultAmong base ((key, v) :: rest)) r := by
  refine settles_congr ?_ h
  intro names e
  constructor
  · rintro ⟨p, hp, tail, rfl, hfault⟩
    exact ⟨p, List.mem_cons_of_mem _ hp, tail, rfl, hfault⟩
  · rintro ⟨p, hp, tail, rfl, hfault⟩
    rcases List.mem_cons.1 hp with rfl | hp
    · exact absurd hfault (hnone tail e)
    · exact ⟨p, hp, tail, rfl, hfault⟩

/-- the members of a directory are converted one after the other, up to the first fault -/
theorem settles_toEntries {base : List String} (hbase : ∀ n ∈ base, ValidName n) {kept : List (String × Value)}
    {nodes : List (String × Node)} (h : Keyed.Related (fun v node => Node.ofJson? v = some node) kept nodes)
    (hordered : Keyed.Ordered kept)
    (hchild : ∀ p ∈ kept, ∀ node, Node.ofJson? p.2 = some node → ∀ dir : List String, (∀ n ∈ dir, ValidName n) →
      Settles (FaultAt dir p.2) (node.toEntry (Path.absolute dir))) :
    Settles (FaultAmong base kept) (Node.toEntries (Path.absolute base) nodes) := by
  induction h with
  | nil =>
    rintro names e ⟨p, hp, -⟩
    cases hp
  | @cons p q kept nodes hpq _ ih =>
    obtain ⟨key, v⟩ := p
    obtain ⟨key', node⟩ := q
    obtain ⟨rfl, hnode⟩ := hpq
    obtain ⟨hkey, hrest⟩ := List.pairwise_cons.1 hordered
    obtain ⟨hfirst, hchildren⟩ := List.forall_mem_cons.1 hchild
    rw [Node.toEntries]
    by_cases hname : Path.isName key = true
    · have hdir : ∀ n ∈ base ++ [key], ValidName n := by
        intro n hn
        rcases List.mem_append.1 hn with hn | hn
        · exact hbase n hn
        · exact List.mem_singleton.1 hn ▸ validName_iff.2 hname
      have hpath : Path.child (Path.absolute base) key = Path.absolute (base ++ [key]) :=
        Path.child_absolute (fun n hn => validName_iff.1 (hbase n hn)) key
      have hsettled := hfirst node hnode (base ++ [key]) hdir
      rw [if_pos hname, hpath]
      cases hentry : node.toEntry (Path.absolute (base ++ [key])) with
      | error e =>
        rw [hentry] at hsettled
        obtain ⟨names, hnames⟩ := hsettled
        exact ⟨key :: names, first_among_head hkey hnames⟩
      | ok entry =>
        rw [hentry] at hsettled
        exact (settles_among_tail hsettled (ih hrest hchildren)).map fun entries => (key, entry) :: entries
    · rw [if_neg hname]
      have hrefused : Refused (base ++ [key] ++ []) v (.invalidName key) :=
        .name (List.append_nil _) fun hvalid => hname (validName_iff.1 hvalid)
      refine ⟨[key], first_among_head hkey ⟨⟨v, .here v, hrefused⟩, ?_⟩⟩
      exact fun names' _ _ => not_before_nil names'

/-! ## Whole values -/

/-- converting the node of a value succeeds, or fails with the first fault in the value -/
theorem settles_toEntry (v : Value) : ∀ node, Node.ofJson? v = some node → ∀ base : List String,
    (∀ n ∈ base, ValidName n) → Settles (FaultAt base v) (node.toEntry (Path.absolute base)) := by
  induction v using Value.induct with
  | null => exact fun _ h => nomatch h
  | bool b => exact fun _ h => nomatch h
  | number => exact fun _ h => nomatch h
  | string s =>
    intro node hnode base hbase
    cases hnode
    exact settles_text hbase s
  | array items _ =>
    intro node hnode base hbase
    obtain ⟨c, hc⟩ := Node.ofJson?_array hnode
    rw [Node.ofJson?_command hc] at hnode
    cases hnode
    exact settles_command hbase hc
  | object members ih =>
    intro node hnode base hbase
    rcases object_cases members with ⟨c, hc⟩ | ⟨base64, hb⟩ | hdir
    · rw [Node.ofJson?_command hc] at hnode
      cases hnode
      exact settles_command hbase hc
    · rw [Node.ofJson?_payload hb] at hnode
      cases hnode
      exact settles_payload hbase hb
    · rw [Node.ofJson?_directory hdir] at hnode
      obtain ⟨nodes, hnodes, rfl⟩ := Option.map_eq_some_iff.1 hnode
      have hchildren := settles_toEntries hbase (Node.membersOfJson?_eq_some.1 hnodes).ofList
        (Keyed.ordered_ofList members) fun p hp => ih p (Keyed.mem_ofList hp)
      have hsettled := settles_congr (fun names e => (faultAt_directory hbase hdir names e).symm) hchildren
      rw [Node.toEntry]
      exact hsettled.map Entry.dir

/-! ## Loading -/

/-- a value that stands for a directory -/
def IsDirectory (v : Value) : Prop :=
  ∃ members, v = .object members ∧ DirectoryMembers members

/-- a node with a valid name, whose command is known and whose bytes can be decoded -/
structure Sound (names : List String) (v : Value) : Prop where
  name : ∀ n, names.getLast? = some n → ValidName n
  command : ∀ c, Command c v → ∃ b : Builtin, b.name = c
  payload : ∀ base64, Payload base64 v → ∃ bytes, Base64.decode base64.toByteArray.data.toList = .ok bytes

/-- a manifest of a file system -/
structure Accepted (v : Value) : Prop where
  shape : ValidShape v
  root : IsDirectory v
  nodes : ∀ names w, NodeAt v names w → Sound names w

theorem sound_iff {names : List String} {v : Value} : Sound names v ↔ ∀ e, ¬Refused names v e := by
  constructor
  · rintro ⟨hname, hcommand, hpayload⟩ e hrefused
    cases hrefused with
    | name hnames hinvalid =>
      subst hnames
      exact hinvalid (hname _ (by simp))
    | command _ hv hunknown =>
      obtain ⟨b, hb⟩ := hcommand _ hv
      exact hunknown b hb
    | payload _ hv hfault =>
      obtain ⟨bytes, hbytes⟩ := hpayload _ hv
      rw [hbytes] at hfault
      cases hfault
  · intro hnone
    have hname : ∀ n, names.getLast? = some n → ValidName n := by
      intro n hn
      obtain ⟨dir, rfl⟩ := List.getLast?_eq_some_iff.1 hn
      by_contra hinvalid
      exact hnone _ (.name rfl hinvalid)
    refine ⟨hname, ?_, ?_⟩
    · intro c hv
      by_contra hunknown
      exact hnone _ (.command hname hv fun b hb => hunknown ⟨b, hb⟩)
    · intro base64 hv
      cases hbytes : Base64.decode base64.toByteArray.data.toList with
      | ok bytes => exact ⟨bytes, rfl⟩
      | error fault => exact absurd (Refused.payload hname hv hbytes) (hnone _)

variable {v : Value} {text : String}

/-- a manifest of valid shapes with a directory as its root is loaded, or refused for its first fault -/
theorem settles_load (htext : Json.DocumentText v text) (hdepth : v.depth ≤ 127) (hvalid : ValidShape v)
    (hdir : IsDirectory v) : Settles (FaultAt [] v) (load text) := by
  obtain ⟨members, rfl, hmembers⟩ := hdir
  obtain ⟨node, hnode⟩ := (Node.exists_ofJson?_iff _).2 hvalid
  have hparse := parse_of_node hnode htext hdepth
  have hsettled := settles_toEntry _ node hnode [] (by simp)
  rw [Node.ofJson?_directory hmembers] at hnode
  obtain ⟨nodes, -, rfl⟩ := Option.map_eq_some_iff.1 hnode
  have hroot : Path.absolute [] = "/" := rfl
  rw [hroot, Node.toEntry] at hsettled
  cases hentries : Node.toEntries "/" (Keyed.ofList nodes) with
  | error e =>
    rw [hentries] at hsettled
    rw [load_of_entries_error hparse hentries]
    exact hsettled
  | ok root =>
    rw [hentries] at hsettled
    obtain ⟨fs, hload, -⟩ := load_of_entries hparse hentries
    rw [hload]
    exact hsettled

theorem load_of_file (htext : Json.DocumentText v text) (hdepth : v.depth ≤ 127) (hvalid : ValidShape v)
    (hdir : ¬IsDirectory v) : load text = .error .rootNotDirectory := by
  obtain ⟨node, hnode⟩ := (Node.exists_ofJson?_iff v).2 hvalid
  refine load_of_no_directory (parse_of_node hnode htext hdepth) ?_
  rintro children rfl
  cases hvalid with
  | text s => cases hnode
  | command hc =>
    rw [Node.ofJson?_command hc] at hnode
    cases hnode
  | payload hb =>
    rw [Node.ofJson?_payload hb] at hnode
    cases hnode
  | @directory members _ =>
    rcases object_cases members with ⟨c, hc⟩ | ⟨base64, hb⟩ | hmembers
    · rw [Node.ofJson?_command hc] at hnode
      cases hnode
    · rw [Node.ofJson?_payload hb] at hnode
      cases hnode
    · exact hdir ⟨members, rfl, hmembers⟩

/--
**What becomes of a manifest.** It is loaded just if it is accepted. Else there is an error: that of the document if a
shape is wrong, else that of the root, else the first fault.
-/
theorem load_verdict (htext : Json.DocumentText v text) (hdepth : v.depth ≤ 127) :
    ((∃ fs, load text = .ok fs) ↔ Accepted v) ∧
      (¬ValidShape v → ∃ e, load text = .error e ∧ e.IsJson) ∧
      (ValidShape v → ¬IsDirectory v → load text = .error .rootNotDirectory) ∧
      (ValidShape v → IsDirectory v → (∃ names w, NodeAt v names w ∧ ¬Sound names w) →
        ∃ names e, First (FaultAt [] v) names e ∧ load text = .error e) := by
  have hinvalid : ¬ValidShape v → ∃ e, load text = .error e ∧ e.IsJson := by
    intro h
    obtain ⟨e, hparse, he⟩ := parse_of_invalid h htext hdepth
    exact ⟨e, load_of_parse_error hparse, he⟩
  refine ⟨⟨?_, ?_⟩, hinvalid, load_of_file htext hdepth, ?_⟩
  · rintro ⟨fs, hload⟩
    have hvalid : ValidShape v := by
      by_contra h
      obtain ⟨e, herror, -⟩ := hinvalid h
      rw [hload] at herror
      cases herror
    have hdir : IsDirectory v := by
      by_contra h
      rw [load_of_file htext hdepth hvalid h] at hload
      cases hload
    have hsettled := settles_load htext hdepth hvalid hdir
    rw [hload] at hsettled
    refine ⟨hvalid, hdir, fun names w hat => sound_iff.2 ?_⟩
    intro e hrefused
    exact hsettled names e ⟨w, hat, hrefused⟩
  · rintro ⟨hvalid, hdir, hnodes⟩
    have hsettled := settles_load htext hdepth hvalid hdir
    cases hload : load text with
    | ok fs => exact ⟨fs, rfl⟩
    | error e =>
      rw [hload] at hsettled
      obtain ⟨names, ⟨w, hat, hrefused⟩, -⟩ := hsettled
      exact absurd hrefused (sound_iff.1 (hnodes names w hat) e)
  · rintro hvalid hdir ⟨names, w, hat, hunsound⟩
    have hsettled := settles_load htext hdepth hvalid hdir
    cases hload : load text with
    | ok fs =>
      rw [hload] at hsettled
      refine absurd (sound_iff.2 ?_) hunsound
      intro e hrefused
      exact hsettled names e ⟨w, hat, hrefused⟩
    | error e =>
      rw [hload] at hsettled
      obtain ⟨first, hfirst⟩ := hsettled
      exact ⟨first, e, hfirst, rfl⟩

/-- a member that is overwritten need not be sound -/
theorem load_verdict_overwritten : ∃ fs, load "\x7b\"a\":[\"rm\"],\"a\":\"x\"\x7d" = .ok fs := by
  have ha : Json.StringText "a" ['"', 'a', '"'] := .plain (by decide)
  have hrm : Json.StringText "rm" ['"', 'r', 'm', '"'] := .plain (by decide)
  have hx : Json.StringText "x" ['"', 'x', '"'] := .plain (by decide)
  have hlist : Json.ValueText (.array [.string "rm"]) ['[', '"', 'r', 'm', '"', ']'] :=
    .array (.last (.bare (.string hrm)))
  have hfirst : Json.MemberText ("a", .array [.string "rm"]) ['"', 'a', '"', ':', '[', '"', 'r', 'm', '"', ']'] :=
    .bare ha (.bare hlist)
  have hsecond : Json.MemberText ("a", .string "x") ['"', 'a', '"', ':', '"', 'x', '"'] :=
    .bare ha (.bare (.string hx))
  have htext : Json.DocumentText (.object [("a", .array [.string "rm"]), ("a", .string "x")])
      "\x7b\"a\":[\"rm\"],\"a\":\"x\"\x7d" :=
    .bare (.object (.cons hfirst (.last hsecond)))
  have hdir : DirectoryMembers [("a", .array [.string "rm"]), ("a", .string "x")] := by
    intro s
    simp
  refine (load_verdict htext (by decide)).1.2 ⟨?_, ⟨_, rfl, hdir⟩, ?_⟩
  · refine .directory (List.forall_mem_cons.2 ⟨.command .item, List.forall_mem_cons.2 ⟨.text "x", ?_⟩⟩)
    simp
  · intro names w hat
    cases hat with
    | here => exact ⟨by simp, fun c hc => absurd hc (hdir.not_command c), fun b hb => absurd hb (hdir.not_payload b)⟩
    | inside _ hkept hat =>
      cases hkept with
      | here hlast => exact absurd rfl (hlast ("a", .string "x") (by simp))
      | later hkept =>
        cases hkept with
        | here =>
          cases hat
          refine ⟨?_, fun c hc => (nomatch hc), fun b hb => nomatch hb⟩
          intro n hn
          cases hn
          decide
        | later hkept => cases hkept

end Manifest

end PageShell
