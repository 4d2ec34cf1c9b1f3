/-
Completed lines lead to the entries that completed them.

Completing an operand splits it behind its last slash, looks its beginning up and puts a name behind it; running the
line cuts it into words and looks the whole operand up. In a file system whose names are ordinary and without blanks
both come to the same entry (`lookup_completed`), for the only candidate as for each of several that the cycle builds a
line for (`completed_line_leads`). So a completed `cd` succeeds and a completed `cat` finds its file.
-/
import Mathlib.Logic.Function.Iterate
import PageShell.Page.TabCycle
import PageShell.Proofs.FileSystem.Listing
import PageShell.Proofs.Shell.WorkingDirectory
import PageShell.Completion

namespace PageShell

open PageShell.Path (Inert OrdinaryName)
open Text (Unbroken)

/-- a name that is one word of a line and one segment of a path -/
def WordName (n : String) : Prop :=
  OrdinaryName n ∧ Unbroken n

instance (n : String) : Decidable (WordName n) := inferInstanceAs (Decidable (_ ∧ _))

/-! ## What an operand matches -/

/-- an entry whose name an operand of `command` can be completed to, in the directory that the operand begins with -/
structure Completion.Match (files : FileSystem) (cwd command operand name : String) (e : Entry) : Prop where
  listed : ∃ children, files.lookup ((PartialPath.ofOperand operand).searched cwd) = some (.dir children) ∧
    (name, e) ∈ children
  admitted : command ≠ "cat" → e.isDir = true
  started : (PartialPath.ofOperand operand).name.toList <+: name.toList

theorem OperandKind.admits_iff {command : String} {kind : OperandKind} (h : ofCommand? command = some kind)
    (l : Listed) : kind.admits l = true ↔ (command ≠ "cat" → l.isDir = true) := by
  unfold ofCommand? at h
  split_ifs at h with hdir hcat
  · have hne : command ≠ "cat" := by
      rintro rfl
      exact absurd hdir (by decide)
    rw [← Option.some.inj h]
    simp [admits, hne]
  · rw [← Option.some.inj h]
    simp [admits, hcat]

theorem Completion.mem_eligible {files : FileSystem} {cwd command operand : String} {kind : OperandKind}
    (h : OperandKind.ofCommand? command = some kind) {l : Listed} :
    l ∈ eligible files cwd kind (.ofOperand operand) ↔
      ∃ e, Match files cwd command operand l.name e ∧ l.isDir = e.isDir := by
  rw [eligible, List.mem_filter, FileSystem.mem_listing, Bool.and_eq_true, OperandKind.admits_iff h, startsWith,
    List.isPrefixOf_iff_prefix]
  constructor
  · rintro ⟨⟨children, e, hlookup, hmem, hdir⟩, hadmitted, hstarted⟩
    exact ⟨e, ⟨⟨children, hlookup, hmem⟩, hdir ▸ hadmitted, hstarted⟩, hdir⟩
  · rintro ⟨e, ⟨⟨children, hlookup, hmem⟩, hadmitted, hstarted⟩, hdir⟩
    exact ⟨⟨children, e, hlookup, hmem, hdir⟩, hdir ▸ hadmitted, hstarted⟩

/-! ## Looking up a completed operand -/

/-- what stands up to the last slash of an operand is empty or ends with that slash -/
theorem PartialPath.directory_cases (operand : String) :
    (ofOperand operand).directory = "" ∨ ∃ d : String, (ofOperand operand).directory = d ++ "/" := by
  rcases Text.cutAfterLast_fst Path.isSlash operand.toList with h | ⟨head, c, hc, h⟩
  · exact Or.inl (by simp [ofOperand, h])
  · have hslash : c = '/' := by simpa [Path.isSlash] using hc
    refine Or.inr ⟨String.ofList head, ?_⟩
    rw [ofOperand, h, hslash, String.ofList_append]

/-- behind a slash, a name leads to the child of that name -/
theorem FileSystem.lookup_child {files : FileSystem} {d cwd name : String} {children : List (String × Entry)} {e : Entry}
    (hdir : files.lookup (Path.resolve (some (d ++ "/")) cwd) = some (.dir children))
    (hfind : Keyed.find? name children = some e) (hname : OrdinaryName name) {suffix : String}
    (hsuffix : suffix = "" ∨ suffix = "/") :
    files.lookup (Path.resolve (some (d ++ "/" ++ name ++ suffix)) cwd) = some e := by
  obtain ⟨path, hpath⟩ := Path.resolve_append d cwd
  have hstart : files.lookup path = some (.dir children) := by
    have hslash := hpath "" Path.carried_empty
    rw [String.append_empty] at hslash
    rw [hslash, lookup_below] at hdir
    obtain ⟨mid, hmid, hdescend⟩ := Option.bind_eq_some_iff.1 hdir
    have hnone : Path.segments "" = [] := rfl
    rw [hnone, Entry.descend_nil] at hdescend
    rw [hmid, hdescend]
  have hcarried : Path.Carried (name ++ suffix) := by
    rcases hsuffix with rfl | rfl
    · rw [String.append_empty]
      exact Path.carried_name hname
    · exact Path.carried_name_slash hname
  rw [String.append_assoc, hpath _ hcarried, lookup_below, hstart, Option.bind_some, Path.segments_entry hname.1 hsuffix,
    Entry.descend_cons_dir, hfind]
  exact Entry.descend_nil e

/-- in the working directory itself a name leads to the child of that name -/
theorem FileSystem.lookup_child_here {files : FileSystem} (hfiles : files.rootEntry.NamesAll OrdinaryName)
    {cwd name : String} {children : List (String × Entry)} {e : Entry} (hdir : files.lookup cwd = some (.dir children))
    (hfind : Keyed.find? name children = some e) (hname : OrdinaryName name) {suffix : String}
    (hsuffix : suffix = "" ∨ suffix = "/") :
    files.lookup (Path.resolve (some (name ++ suffix)) cwd) = some e := by
  have hcwd : ∀ n ∈ Path.segments cwd, Inert n.toList := fun n hn => ((Entry.namesAll_of_descend hfiles hdir).1 n hn).2
  have hseg : Path.segments (name ++ suffix) = [name] := Path.segments_entry hname.1 hsuffix
  have hroot : ¬Path.FromRoot (name ++ suffix) := by
    obtain ⟨hne, hwhole⟩ := Path.isName_iff.1 hname.1
    obtain ⟨c, cs, hc⟩ := List.exists_cons_of_ne_nil hne
    intro hfrom
    have hslash : c = '/' := by simpa [Path.FromRoot, hc] using hfrom
    exact absurd (hwhole c (by simp [hc])) (by rw [hslash]; decide)
  have hinert : ∀ n ∈ Path.segments (name ++ suffix), Inert n.toList := by simpa [hseg] using hname.2
  have hresolve := Path.segments_resolve hcwd hinert
  rw [if_neg hroot, hseg] at hresolve
  rw [lookup_eq_descend hresolve, Entry.descend_append]
  rw [lookup] at hdir
  rw [hdir, Option.bind_some, Entry.descend_cons_dir, hfind]
  exact Entry.descend_nil e

/-! ## Lines -/

/-- a line is a command with one operand, and the operand leads to an entry -/
def LeadsTo (files : FileSystem) (cwd command line : String) (e : Entry) : Prop :=
  ∃ operand, Text.words line = [command, operand] ∧ files.lookup (Path.resolve (some operand) cwd) = some e

theorem words_call {command operand : String} (hc : Unbroken command) (hcne : command ≠ "") (ho : Unbroken operand)
    (hone : operand ≠ "") : Text.words (command ++ " " ++ operand) = [command, operand] := by
  rw [Text.words_append, Text.words_of_unbroken hc hcne, Text.words_of_unbroken ho hone]
  rfl

theorem PartialPath.unbroken_directory {operand : String} (h : Unbroken operand) :
    Unbroken (ofOperand operand).directory := by
  intro c hc
  refine h c ?_
  rw [← Text.cutAfterLast_append Path.isSlash operand.toList]
  exact List.mem_append_left _ (by simpa [ofOperand] using hc)

section

variable {files : FileSystem} {cwd command operand name : String} {e : Entry}

/-- with a slash behind it or without, a matched name leads to its entry -/
theorem lookup_completed (hfiles : files.rootEntry.NamesAll OrdinaryName)
    (h : Completion.Match files cwd command operand name e) {suffix : String} (hsuffix : suffix = "" ∨ suffix = "/") :
    files.lookup (Path.resolve (some ((PartialPath.ofOperand operand).directory ++ name ++ suffix)) cwd) = some e := by
  obtain ⟨⟨children, hdir, hmem⟩, -, -⟩ := h
  have hfind := FileSystem.find?_of_lookup hdir hmem
  have hname : OrdinaryName name :=
    (Entry.namesAll_of_find? (Entry.namesAll_of_descend hfiles hdir).2 hfind).1
  rcases PartialPath.directory_cases operand with hd | ⟨d, hd⟩
  · rw [PartialPath.searched, hd, Path.resolve_empty] at hdir
    rw [hd, String.empty_append]
    exact FileSystem.lookup_child_here hfiles hdir hfind hname hsuffix
  · rw [PartialPath.searched, hd] at hdir
    rw [hd]
    exact FileSystem.lookup_child hdir hfind hname hsuffix

theorem Completion.Match.wordName (h : Match files cwd command operand name e)
    (hfiles : files.rootEntry.NamesAll WordName) : WordName name := by
  obtain ⟨⟨children, hdir, hmem⟩, -, -⟩ := h
  have hfind := FileSystem.find?_of_lookup hdir hmem
  exact (Entry.namesAll_of_find? (Entry.namesAll_of_descend hfiles hdir).2 hfind).1

/-- a name matches at most one entry -/
theorem Completion.Match.entry_unique (h : Match files cwd command operand name e) {e' : Entry}
    (h' : Match files cwd command operand name e') : e' = e := by
  obtain ⟨⟨children, hdir, hmem⟩, -, -⟩ := h
  obtain ⟨⟨children', hdir', hmem'⟩, -, -⟩ := h'
  have hfind := FileSystem.find?_of_lookup hdir hmem
  have hfind' := FileSystem.find?_of_lookup hdir' hmem'
  rw [hdir, Option.some.injEq, Entry.dir.injEq] at hdir'
  rw [hdir', hfind', Option.some.injEq] at hfind
  exact hfind

/-- a matched name, with a slash behind it or without, is one word behind the command and leads to its entry -/
theorem Completion.Match.leadsTo (h : Match files cwd command operand name e)
    (hfiles : files.rootEntry.NamesAll WordName) (hc : Unbroken command) (hcne : command ≠ "")
    (ho : Unbroken operand) {suffix : String} (hsuffix : suffix = "" ∨ suffix = "/") :
    LeadsTo files cwd command (command ++ " " ++ (PartialPath.ofOperand operand).directory ++ name ++ suffix) e := by
  have hordinary : files.rootEntry.NamesAll OrdinaryName := Entry.NamesAll.imp (fun n hn => hn.1) hfiles
  obtain ⟨⟨hname, -⟩, hword⟩ := h.wordName hfiles
  have hne : name ≠ "" := by
    rintro rfl
    exact absurd hname (by decide)
  have hsolid : Unbroken suffix := by
    rcases hsuffix with rfl | rfl <;> decide
  have hpath : Unbroken ((PartialPath.ofOperand operand).directory ++ name ++ suffix) :=
    ((PartialPath.unbroken_directory ho).append hword).append hsolid
  have hline : command ++ " " ++ (PartialPath.ofOperand operand).directory ++ name ++ suffix =
      command ++ " " ++ ((PartialPath.ofOperand operand).directory ++ name ++ suffix) := by
    simp only [String.append_assoc]
  exact ⟨_, by rw [hline, words_call hc hcne hpath (by simp [hne])], lookup_completed hordinary h hsuffix⟩

/-- a space behind a line changes nothing -/
theorem LeadsTo.space {line : String} (h : LeadsTo files cwd command line e) :
    LeadsTo files cwd command (line ++ " ") e := by
  obtain ⟨operand, hwords, hlookup⟩ := h
  refine ⟨operand, ?_, hlookup⟩
  rw [← String.append_empty (s := line ++ " "), Text.words_append, hwords, Text.words_empty, List.append_nil]

end

/-! ## Completing an operand -/

theorem Text.trimStart_of_unbroken {s : String} (h : Unbroken s) : Text.trimStart s = s := by
  have hdrop : s.toList.dropWhile Text.isBlank = s.toList := by
    cases hs : s.toList with
    | nil => rfl
    | cons c cs => simp [h c (by simp [hs])]
  rw [Text.trimStart, hdrop, String.ofList_toList]

theorem Text.trimStart_append {s : String} (h : Unbroken s) (hne : s ≠ "") (t : String) :
    Text.trimStart (s ++ t) = s ++ t := by
  have hdrop : (s ++ t).toList.dropWhile Text.isBlank = (s ++ t).toList := by
    cases hs : s.toList with
    | nil => exact absurd (String.toList_inj.1 hs) hne
    | cons c cs => simp [hs, h c (by simp [hs])]
  rw [Text.trimStart, hdrop, String.ofList_toList]

theorem Completion.cutAtSpace?_append {a : List Char} (h : ∀ c ∈ a, c ≠ ' ') (b : List Char) :
    cutAtSpace? (a ++ ' ' :: b) = some (a, b) := by
  induction a with
  | nil => rfl
  | cons c cs ih =>
    have hc : c ≠ ' ' := h c List.mem_cons_self
    simp [cutAtSpace?, hc, ih fun x hx => h x (List.mem_cons_of_mem c hx)]

/-- a line of a command and one unbroken operand is completed at the operand -/
theorem Shell.complete_operand (shell : Shell) (cwd : String) {command operand : String} {kind : OperandKind}
    (hkind : OperandKind.ofCommand? command = some kind) (hc : Unbroken command) (hcne : command ≠ "")
    (ho : Unbroken operand) : shell.complete cwd (command ++ " " ++ operand) =
      Completion.ofOperand shell.files cwd command kind operand := by
  have htrim : Text.trimStart (command ++ " " ++ operand) = command ++ " " ++ operand := by
    rw [String.append_assoc, Text.trimStart_append hc hcne]
  have hspace : ∀ c ∈ command.toList, c ≠ ' ' := by
    rintro c hmem rfl
    exact absurd (hc ' ' hmem) (by decide)
  have hcut : Completion.cutAtSpace? (command ++ " " ++ operand).toList = some (command.toList, operand.toList) := by
    rw [← Completion.cutAtSpace?_append hspace operand.toList]
    simp
  have hne : (command ++ " " ++ operand).isEmpty = false := by simp
  simp only [Shell.complete, htrim, hne, hcut, String.ofList_toList, hkind, Text.trimStart_of_unbroken ho, Bool.false_eq_true,
    if_false]

/-- completing an operand finds nothing, one entry, or several -/
theorem Completion.ofOperand_cases (files : FileSystem) (cwd command : String) (kind : OperandKind) (operand : String) :
    ofOperand files cwd command kind operand = .none ∨
      (∃ l, eligible files cwd kind (.ofOperand operand) = [l] ∧ ofOperand files cwd command kind operand =
        .single (command ++ " " ++ (PartialPath.ofOperand operand).directory ++ l.name ++
          if l.isDir then "/" else " ")) ∨
      ofOperand files cwd command kind operand =
        .several (command ++ " " ++ (PartialPath.ofOperand operand).directory ++
            common ((eligible files cwd kind (.ofOperand operand)).map (·.name)))
          ((eligible files cwd kind (.ofOperand operand)).map Listed.display) := by
  unfold ofOperand
  dsimp only
  split
  · exact Or.inl rfl
  · rename_i l hl
    exact Or.inr (Or.inl ⟨l, hl, rfl⟩)
  · exact Or.inr (Or.inr rfl)

/-! ## The cycle -/

theorem TabCycle.iterate_advance (base : String) {candidates : List String} (h : candidates ≠ []) (i : Nat) :
    advance^[i] (start base candidates) = ⟨base, candidates, i % candidates.length⟩ := by
  induction i with
  | zero => rfl
  | succ i ih => simp [Function.iterate_succ_apply', ih, advance, h]

/-- the selected candidate stands in place of the word that the base ends with -/
theorem TabCycle.completion?_of_word {stem word selected : String} {candidates : List String} {i : Nat}
    (hstem : ∃ head c, endsWord c = true ∧ stem.toList = head ++ [c]) (hword : ∀ c ∈ word.toList, endsWord c = false)
    (hi : candidates[i]? = some selected) :
    (TabCycle.mk (stem ++ word) candidates i).completion? = some (stem ++ selected) := by
  obtain ⟨head, c, hc, hstem⟩ := hstem
  have hcut : Text.cutAfterLast endsWord (stem ++ word).toList = (stem.toList, word.toList) := by
    rw [hstem, ← Text.cutAfterLast_append_sep hc head hword, String.toList_append, hstem]
    simp
  simp only [completion?, hi, hcut, String.ofList_toList, Option.map_some]

theorem PartialPath.stem_ends (command operand : String) : ∃ head c, TabCycle.endsWord c = true ∧
    (command ++ " " ++ (ofOperand operand).directory).toList = head ++ [c] := by
  rcases directory_cases operand with hd | ⟨d, hd⟩
  · exact ⟨command.toList, ' ', rfl, by simp [hd]⟩
  · exact ⟨(command ++ " " ++ d).toList, '/', rfl, by simp [hd]⟩

theorem endsWord_of_wordName {n : String} (h : WordName n) : ∀ c ∈ n.toList, TabCycle.endsWord c = false := by
  intro c hc
  have hspace : c ≠ ' ' := by
    rintro rfl
    exact absurd (h.2 ' ' hc) (by decide)
  have hslash : Path.isSlash c = false := (Path.isName_iff.1 h.1.1).2 c hc
  simpa [TabCycle.endsWord, Path.isSlash, hspace] using hslash

theorem Completion.common_eq (texts : List String) :
    common texts = String.ofList (Text.commonPrefixAll (texts.map String.toList)) := by
  rw [common, Text.commonStart?_eq, Option.getD_some]

/-- what names have in common ends no word -/
theorem endsWord_common {names : List String} (h : ∀ n ∈ names, WordName n) :
    ∀ c ∈ (Completion.common names).toList, TabCycle.endsWord c = false := by
  intro c hc
  cases names with
  | nil => simp [Completion.common_eq, Text.commonPrefixAll] at hc
  | cons n rest =>
    have hstart : (Completion.common (n :: rest)).toList <+: n.toList := by
      simpa [Completion.common_eq] using Text.commonPrefixAll_start n.toList (rest.map String.toList)
    exact endsWord_of_wordName (h n List.mem_cons_self) c (hstart.subset hc)

/-! ## Completed lines -/

/-- the lines that a line is completed to: the only one there is, or one that is built for a selected candidate -/
inductive CompletedTo (shell : Shell) (cwd input : String) : String → Prop where
  | single {line : String} (h : shell.complete cwd input = .single line) : CompletedTo shell cwd input line
  | selected {base : String} {candidates : List String} (h : shell.complete cwd input = .several base candidates)
      (i : Nat) {line : String} (hline : (TabCycle.advance^[i] (.start base candidates)).completion? = some line) :
      CompletedTo shell cwd input line

section

variable {shell : Shell} {cwd command operand : String} {kind : OperandKind}

/-- the only completion leads to the only match -/
theorem single_leadsTo (hfiles : shell.files.rootEntry.NamesAll WordName)
    (hkind : OperandKind.ofCommand? command = some kind) (hc : Unbroken command) (hcne : command ≠ "")
    (ho : Unbroken operand) {line : String} (h : shell.complete cwd (command ++ " " ++ operand) = .single line) :
    ∃ name e, Completion.Match shell.files cwd command operand name e ∧
      (∀ name' e', Completion.Match shell.files cwd command operand name' e' → name' = name ∧ e' = e) ∧
      LeadsTo shell.files cwd command line e := by
  have hcomplete := Shell.complete_operand shell cwd hkind hc hcne ho
  rw [hcomplete] at h
  rcases Completion.ofOperand_cases shell.files cwd command kind operand with hnone | ⟨l, hl, hsingle⟩ | hseveral
  · rw [hnone] at h
    cases h
  · rw [hsingle] at h
    obtain ⟨e, hmatch, hdir⟩ := (Completion.mem_eligible hkind).1 (hl ▸ List.mem_singleton_self l)
    refine ⟨l.name, e, hmatch, ?_, ?_⟩
    · intro name' e' hmatch'
      have hmem := (Completion.mem_eligible hkind (l := ⟨name', e'.isDir⟩)).2 ⟨e', hmatch', rfl⟩
      rw [hl, List.mem_singleton] at hmem
      have hname : name' = l.name := congrArg Listed.name hmem
      subst hname
      exact ⟨rfl, hmatch.entry_unique hmatch'⟩
    · rw [← Completion.single.inj h]
      cases l.isDir with
      | true => exact hmatch.leadsTo hfiles hc hcne ho (Or.inr rfl)
      | false => simpa using (hmatch.leadsTo hfiles hc hcne ho (Or.inl rfl)).space
  · rw [hseveral] at h
    cases h

/-- the line built for a candidate leads to the match that the candidate shows -/
theorem selected_leadsTo (hfiles : shell.files.rootEntry.NamesAll WordName)
    (hkind : OperandKind.ofCommand? command = some kind) (hc : Unbroken command) (hcne : command ≠ "")
    (ho : Unbroken operand) {base : String} {candidates : List String}
    (h : shell.complete cwd (command ++ " " ++ operand) = .several base candidates) {i : Nat} {candidate : String}
    (hi : candidates[i]? = some candidate) :
    ∃ name e line, Completion.Match shell.files cwd command operand name e ∧
      candidate = Listed.display ⟨name, e.isDir⟩ ∧ (TabCycle.mk base candidates i).completion? = some line ∧
      LeadsTo shell.files cwd command line e := by
  have hcomplete := Shell.complete_operand shell cwd hkind hc hcne ho
  rw [hcomplete] at h
  rcases Completion.ofOperand_cases shell.files cwd command kind operand with hnone | ⟨l, hl, hsingle⟩ | hseveral
  · rw [hnone] at h
    cases h
  · rw [hsingle] at h
    cases h
  · rw [hseveral] at h
    obtain ⟨hbase, hcandidates⟩ := Completion.several.inj h
    have hmem : candidate ∈ candidates := List.mem_of_getElem? hi
    rw [← hcandidates] at hmem
    obtain ⟨l, hl, rfl⟩ := List.mem_map.1 hmem
    obtain ⟨e, hmatch, hdir⟩ := (Completion.mem_eligible hkind).1 hl
    have hnames : ∀ n ∈ (Completion.eligible shell.files cwd kind (.ofOperand operand)).map (·.name), WordName n := by
      intro n hn
      obtain ⟨l', hl', rfl⟩ := List.mem_map.1 hn
      obtain ⟨e', hmatch', -⟩ := (Completion.mem_eligible hkind).1 hl'
      exact hmatch'.wordName hfiles
    have hline := TabCycle.completion?_of_word (PartialPath.stem_ends command operand) (endsWord_common hnames) hi
    rw [hbase] at hline
    refine ⟨l.name, e, _, hmatch, by rw [← hdir], hline, ?_⟩
    unfold Listed.display
    split
    · rw [← String.append_assoc]
      exact hmatch.leadsTo hfiles hc hcne ho (Or.inr rfl)
    · simpa using hmatch.leadsTo hfiles hc hcne ho (Or.inl rfl)

/-- every completed line leads to a match -/
theorem CompletedTo.leadsTo {input line : String} (h : CompletedTo shell cwd input line)
    (hinput : input = command ++ " " ++ operand) (hfiles : shell.files.rootEntry.NamesAll WordName)
    (hkind : OperandKind.ofCommand? command = some kind) (hc : Unbroken command) (hcne : command ≠ "")
    (ho : Unbroken operand) : ∃ name e, Completion.Match shell.files cwd command operand name e ∧
      LeadsTo shell.files cwd command line e := by
  subst hinput
  cases h with
  | single h =>
    obtain ⟨name, e, hmatch, -, hleads⟩ := single_leadsTo hfiles hkind hc hcne ho h
    exact ⟨name, e, hmatch, hleads⟩
  | selected h i hline =>
    rename_i base candidates
    have hne : candidates ≠ [] := by
      rintro rfl
      have hfixed : TabCycle.advance (.start base []) = .start base [] := rfl
      rw [Function.iterate_fixed hfixed] at hline
      cases hline
    rw [TabCycle.iterate_advance base hne] at hline
    have hlt : i % candidates.length < candidates.length := Nat.mod_lt i (List.length_pos_iff.2 hne)
    obtain ⟨name, e, line', hmatch, -, hline', hleads⟩ :=
      selected_leadsTo hfiles hkind hc hcne ho h (List.getElem?_eq_getElem hlt)
    rw [hline, Option.some.injEq] at hline'
    exact ⟨name, e, hmatch, hline' ▸ hleads⟩

end

/-! ## Running completed lines -/

/-- an error line that says that a file is missing -/
def Write.ReportsMissing (w : Write) : Prop :=
  ∃ message : String, w = .append (.error message) ∧ "No such file or directory".toList <:+ message.toList

theorem not_reportsMissing_isADirectory (command operand : String) :
    ¬Write.ReportsMissing (.append (.error (ShellError.isADirectory command operand).message)) := by
  rintro ⟨message, hmessage, hend⟩
  have htext : message = command ++ ": " ++ operand ++ ": Is a directory" :=
    (Line.error.inj (Write.append.inj hmessage)).symm
  rw [htext, String.toList_append] at hend
  have hlength : ": Is a directory".toList.length ≤ "No such file or directory".toList.length := by decide
  have hshort := List.suffix_of_suffix_length_le (List.suffix_append _ _) hend hlength
  exact absurd hshort (by decide)

/-- `cat` does not miss a file that its operand leads to -/
theorem Shell.call_cat_of_some {shell : Shell} {session : Session} {operand : String} {e : Entry}
    (h : shell.files.lookup (Path.resolve (some operand) session.cwd) = some e) (net : Network) :
    ∀ w ∈ ((shell.call session .cat [operand]).run net).writes, ¬w.ReportsMissing := by
  have hcall : shell.call session .cat [operand] = conclude session (Commands.cat ⟨shell, session⟩ [operand]) := rfl
  have hlookup : Context.lookup ⟨shell, session⟩ (Context.resolve ⟨shell, session⟩ (some operand)) = some e := h
  rw [hcall]
  cases e with
  | dir children =>
    simp only [Commands.cat, hlookup, conclude, Process.run, List.mem_singleton]
    rintro w rfl
    exact not_reportsMissing_isADirectory "cat" operand
  | exec b =>
    simp [Commands.cat, hlookup, conclude, Process.run, Process.run_writeAll, Effect.text, Effect.lines,
      Write.ReportsMissing]
  | file c =>
    cases c with
    | text s =>
      by_cases himage : Commands.showsImage operand <;>
        simp [Commands.cat, hlookup, conclude, Process.run, Process.run_writeAll, Effect.lines, Write.ReportsMissing,
          himage]
    | binary bytes =>
      simp only [Commands.cat, hlookup, conclude, Process.run, List.mem_singleton]
      rintro w rfl ⟨message, hmessage, hend⟩
      rw [← Line.error.inj (Write.append.inj hmessage)] at hend
      exact absurd hend (by decide)

/-- a completed line of the standard commands succeeds as `cd`, and finds its file as `cat` -/
theorem LeadsTo.execute {shell : Shell} {session : Session} {command operand line name : String} {e : Entry}
    (hmatch : Completion.Match shell.files session.cwd command operand name e)
    (h : LeadsTo shell.files session.cwd command line e) (hregistry : shell.registry = .standard) (net : Network) :
    (command = "cd" → ((shell.execute session line).run net).result.status = 0 ∧
      shell.files.lookup ((shell.execute session line).run net).result.session.cwd = some e) ∧
    (command = "cat" → ∀ w ∈ ((shell.execute session line).run net).writes, ¬w.ReportsMissing) := by
  obtain ⟨operand', hwords, hlookup⟩ := h
  constructor
  · rintro rfl
    have hcommand : shell.command? session "cd" = some .cd := by
      have hget : Registry.standard.get? "cd" = some (.ofBuiltin .cd) := by decide
      simp [Shell.command?, hregistry, hget, RegistryEntry.ofBuiltin]
    obtain ⟨children, rfl⟩ : ∃ children, e = .dir children := by
      have hdir := hmatch.admitted (by decide)
      cases e with
      | dir children => exact ⟨children, rfl⟩
      | file c => cases hdir
      | exec b => cases hdir
    rw [Shell.execute_of_words hwords hcommand, Shell.call_cd_of_dir hlookup]
    exact ⟨rfl, hlookup⟩
  · rintro rfl
    have hcommand : shell.command? session "cat" = some .cat := by
      have hget : Registry.standard.get? "cat" = some (.ofBuiltin .cat) := by decide
      simp [Shell.command?, hregistry, hget, RegistryEntry.ofBuiltin]
    rw [Shell.execute_of_words hwords hcommand]
    exact Shell.call_cat_of_some hlookup net

/--
**Completion agrees with running.** In a file system of word names and from any working directory, the operand of `cd`,
`ls`, `tree` or `cat` is completed so that the line leads to the only match, and so does the line built for each of
several candidates. With the standard commands a completed `cd` goes to the match, and a completed `cat` finds it.
-/
theorem completed_lines_execute (shell : Shell) (hfiles : shell.files.rootEntry.NamesAll WordName) (session : Session)
    {command operand : String} (hcommand : command ∈ ["cd", "ls", "tree", "cat"]) (hoperand : Unbroken operand) :
    (∀ line, shell.complete session.cwd (command ++ " " ++ operand) = .single line →
      ∃ name e, Completion.Match shell.files session.cwd command operand name e ∧
        (∀ name' e', Completion.Match shell.files session.cwd command operand name' e' → name' = name ∧ e' = e) ∧
        LeadsTo shell.files session.cwd command line e) ∧
    (∀ base candidates, shell.complete session.cwd (command ++ " " ++ operand) = .several base candidates →
      ∀ i (hi : i < candidates.length), ∃ name e line,
        Completion.Match shell.files session.cwd command operand name e ∧
        candidates[i] = Listed.display ⟨name, e.isDir⟩ ∧
        (TabCycle.advance^[i] (.start base candidates)).completion? = some line ∧
        LeadsTo shell.files session.cwd command line e) ∧
    (shell.registry = .standard → ∀ line, CompletedTo shell session.cwd (command ++ " " ++ operand) line → ∀ net,
      (command = "cd" → ((shell.execute session line).run net).result.status = 0 ∧
        shell.files.isDirectory ((shell.execute session line).run net).result.session.cwd = true) ∧
      (command = "cat" → ∀ w ∈ ((shell.execute session line).run net).writes, ¬w.ReportsMissing)) := by
  obtain ⟨kind, hkind, hc, hcne⟩ :
      ∃ kind, OperandKind.ofCommand? command = some kind ∧ Unbroken command ∧ command ≠ "" := by
    simp only [List.mem_cons, List.not_mem_nil, or_false] at hcommand
    rcases hcommand with rfl | rfl | rfl | rfl
    · exact ⟨.directory, by decide⟩
    · exact ⟨.directory, by decide⟩
    · exact ⟨.directory, by decide⟩
    · exact ⟨.any, by decide⟩
  refine ⟨?_, ?_, ?_⟩
  · intro line h
    exact single_leadsTo hfiles hkind hc hcne hoperand h
  · intro base candidates h i hi
    have hne : candidates ≠ [] := List.length_pos_iff.1 (Nat.zero_lt_of_lt hi)
    obtain ⟨name, e, line, hmatch, hshown, hline, hleads⟩ :=
      selected_leadsTo hfiles hkind hc hcne hoperand h (List.getElem?_eq_getElem hi)
    rw [TabCycle.iterate_advance base hne, Nat.mod_eq_of_lt hi]
    exact ⟨name, e, line, hmatch, hshown, hline, hleads⟩
  · intro hregistry line h net
    obtain ⟨name, e, hmatch, hleads⟩ := h.leadsTo rfl hfiles hkind hc hcne hoperand
    obtain ⟨hcd, hcat⟩ := hleads.execute hmatch hregistry net
    refine ⟨?_, hcat⟩
    intro hcommand
    refine ⟨(hcd hcommand).1, ?_⟩
    rw [FileSystem.isDirectory, (hcd hcommand).2]
    exact hmatch.admitted (by rw [hcommand]; decide)

/-- the site's own files, and an operand that goes up and down and doubles a slash -/
theorem completed_lines_execute_projects :
    Site.files.rootEntry.NamesAll WordName ∧ "cd" ∈ ["cd", "ls", "tree", "cat"] ∧ Unbroken "autumn//../autumn/p" ∧
      ((Shell.execute ⟨Site.files, .standard⟩ ⟨"/home/", .ofList []⟩ "cd autumn//../autumn/projects/").run
        (.ofReplies [])).result.status = 0 := by
  have hfiles : Site.files.rootEntry.NamesAll WordName := by decide +kernel
  have hcommand : "cd" ∈ ["cd", "ls", "tree", "cat"] := by decide
  have hoperand : Unbroken "autumn//../autumn/p" := by decide
  have hcomplete : Shell.complete ⟨Site.files, .standard⟩ "/home/" ("cd" ++ " " ++ "autumn//../autumn/p") =
      .single "cd autumn//../autumn/projects/" := by decide +kernel
  have h := (completed_lines_execute ⟨Site.files, .standard⟩ hfiles ⟨"/home/", .ofList []⟩ hcommand hoperand).2.2
  exact ⟨hfiles, hcommand, hoperand, ((h rfl _ (.single hcomplete) (.ofReplies [])).1 rfl).1⟩

end PageShell
