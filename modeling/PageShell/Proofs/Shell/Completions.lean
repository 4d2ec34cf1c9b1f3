/-
What a line is completed to, exactly.

A line that is not blank asks how its first word goes on, or the operand behind a command (`Completion.Asks`), and there
are names that are eligible (`Completion.Eligible`). If there is one, the line is completed to it. If there are more, it
gets the longest start that all of them share, and each is shown once, in the order of the registry or in that of the
directory (`complete_answers`).
-/
import Mathlib.Data.List.TakeWhile
import PageShell.Proofs.Shell.CompletedLines
import PageShell.Proofs.Shell.Registration

namespace PageShell

/-! ## Texts behind blanks -/

namespace Text

/-- a text that does not begin with a blank -/
def Flush (s : String) : Prop :=
  ∀ c ∈ s.toList.head?, isBlank c = false

-- by name: instance search may settle on trying every character there is
instance (s : String) : Decidable (Flush s) := Option.decidableForallMem s.toList.head?

/-- some blanks, and then a text that does not begin with one -/
def Indents (text line : String) : Prop :=
  ∃ blanks : String, line = blanks ++ text ∧ (∀ c ∈ blanks.toList, isBlank c = true) ∧ Flush text

theorem Flush.dropWhile_eq {s : String} (h : Flush s) : s.toList.dropWhile isBlank = s.toList := by
  cases hs : s.toList with
  | nil => rfl
  | cons c cs =>
    have hc : isBlank c = false := h c (by rw [hs]; rfl)
    rw [List.dropWhile_cons_of_neg (by simp [hc])]

theorem Flush.indents {s : String} (h : Flush s) : Indents s s :=
  ⟨"", String.empty_append.symm, nofun, h⟩

theorem Indents.flush {text line : String} (h : Indents text line) : Flush text := by
  obtain ⟨blanks, -, -, hflush⟩ := h
  exact hflush

/-- trimming a line leaves the text behind its blanks -/
theorem trimStart_eq_iff {line text : String} : trimStart line = text ↔ Indents text line := by
  constructor
  · rintro rfl
    refine ⟨String.ofList (line.toList.takeWhile isBlank), ?_, ?_, ?_⟩
    · rw [trimStart, ← String.ofList_append, List.takeWhile_append_dropWhile, String.ofList_toList]
    · intro c hc
      rw [String.toList_ofList] at hc
      exact List.mem_takeWhile_imp hc
    · intro c hc
      rw [trimStart, String.toList_ofList] at hc
      have hfirst := List.head?_dropWhile_not isBlank line.toList
      rw [Option.mem_def.1 hc] at hfirst
      simpa using hfirst
  · rintro ⟨blanks, rfl, hblank, hflush⟩
    rw [trimStart, String.toList_append, List.dropWhile_append_of_pos hblank, hflush.dropWhile_eq, String.ofList_toList]

theorem trimStart_eq_empty_iff {s : String} : trimStart s = "" ↔ isBlankText s = true := by
  simp [trimStart, isBlankText, List.dropWhile_eq_nil_iff]

end Text

namespace Completion

/-! ## Questions -/

/-- what a line asks to complete: its first word, or the last name of the operand behind a command -/
inductive Question where
  | word (typed : String)
  | operand (command directory typed : String)

namespace Question

/-- what stands before the completed name -/
def kept : Question → String
  | word _ => ""
  | operand command directory _ => command ++ " " ++ directory

/-- the beginning of the name -/
def typed : Question → String
  | word typed => typed
  | operand _ _ typed => typed

end Question

/-- behind its blanks, a line without a space is a word; else it is a command with an operand, which may stand behind
blanks too and is cut at its last slash -/
inductive Asks (line : String) : Question → Prop where
  | word {typed : String} (htext : Text.Indents typed line) (hne : typed ≠ "") (hspace : ' ' ∉ typed.toList) :
      Asks line (.word typed)
  | operand {command rest directory typed : String} (htext : Text.Indents (command ++ " " ++ rest) line)
      (hspace : ' ' ∉ command.toList) (hoperand : Text.Indents (directory ++ typed) rest)
      (hdirectory : directory = "" ∨ ∃ d, directory = d ++ "/") (hslash : '/' ∉ typed.toList) :
      Asks line (.operand command directory typed)

/-- the commands whose operand is completed, and what it is completed to -/
def Takes (command : String) (l : Listed) : Prop :=
  command ∈ ["cd", "ls", "tree"] ∧ l.isDir = true ∨ command = "cat"

/-- the names that answer a question; a registered name is listed like that of a file -/
def Eligible (shell : Shell) (cwd : String) : Question → Listed → Prop
  | .word typed, l => l.name ∈ shell.registry.names ∧ l.isDir = false ∧ typed.toList <+: l.name.toList
  | .operand command directory typed, l =>
    Takes command l ∧ typed.toList <+: l.name.toList ∧ ∃ children e,
      shell.files.lookup (if directory = "" then cwd else Path.resolve (some directory) cwd) = some (.dir children) ∧
        (l.name, e) ∈ children ∧ (l.isDir = true ↔ ∃ cs, e = .dir cs)

theorem Eligible.starts {shell : Shell} {cwd : String} {q : Question} {l : Listed}
    (h : Eligible shell cwd q l) : q.typed.toList <+: l.name.toList := by
  cases q with
  | word typed => exact h.2.2
  | operand command directory typed => exact h.2.1

/-! ## Answers -/

/-- the longest text that all of some texts start with -/
def LongestStart (start : String) (texts : List String) : Prop :=
  (∀ t ∈ texts, start.toList <+: t.toList) ∧
    ∀ s : String, (∀ t ∈ texts, s.toList <+: t.toList) → s.toList <+: start.toList

/-- a question is answered by nothing, by the only name that was found, or by what the names that were found share -/
structure Answers (q : Question) (found : List Listed) (c : Completion) : Prop where
  none_iff : c = .none ↔ found = []
  single_iff : ∀ text, c = .single text ↔
    ∃ l, found = [l] ∧ text = q.kept ++ l.name ++ (if l.isDir then "/" else " ")
  several_iff : ∀ text candidates, c = .several text candidates ↔
    2 ≤ found.length ∧ (candidates = found.map fun l => if l.isDir then l.name ++ "/" else l.name) ∧
      ∃ start, LongestStart start (found.map (·.name)) ∧ text = q.kept ++ start
  extends_typed : ∀ text, (c = .single text ∨ ∃ candidates, c = .several text candidates) →
    (q.kept ++ q.typed).toList <+: text.toList

theorem LongestStart.unique {s t : String} {texts : List String} (hs : LongestStart s texts)
    (ht : LongestStart t texts) : s = t := by
  apply String.toList_inj.1
  exact (ht.2 s hs.1).eq_of_length_le (hs.2 t ht.1).length_le

theorem longestStart_common {texts : List String} (hne : texts ≠ []) : LongestStart (common texts) texts := by
  have hiff : ∀ s : List Char, s <+: (common texts).toList ↔ ∀ t ∈ texts, s <+: t.toList := by
    intro s
    rw [common_eq, String.toList_ofList, Text.prefix_commonPrefixAll_iff (by simpa using hne), List.forall_mem_map]
  exact ⟨(hiff _).1 (List.prefix_refl _), fun s hs => (hiff _).2 hs⟩

/-- the answer to a question when these names are found -/
def answer (q : Question) : List Listed → Completion
  | [] => .none
  | [l] => .single (q.kept ++ l.name ++ if l.isDir then "/" else " ")
  | ls => .several (q.kept ++ common (ls.map (·.name))) (ls.map Listed.display)

theorem Question.starts_kept (q : Question) {name : String} (h : q.typed.toList <+: name.toList) (suffix : String) :
    (q.kept ++ q.typed).toList <+: (q.kept ++ name ++ suffix).toList := by
  rw [String.toList_append, String.toList_append, String.toList_append, List.append_assoc, List.prefix_append_right_inj]
  exact h.trans (List.prefix_append _ _)

theorem answers_answer (q : Question) {found : List Listed} (h : ∀ l ∈ found, q.typed.toList <+: l.name.toList) :
    Answers q found (answer q found) := by
  match found with
  | [] => exact ⟨by simp [answer], by simp [answer], by simp [answer], by simp [answer]⟩
  | [l] =>
    let shown := q.kept ++ l.name ++ if l.isDir then "/" else " "
    have hanswer : answer q [l] = .single shown := rfl
    rw [hanswer]
    refine ⟨by simp, ?_, by simp, ?_⟩
    · intro text
      rw [single.injEq]
      constructor
      · intro htext
        exact ⟨l, rfl, htext.symm⟩
      · rintro ⟨l', hl, rfl⟩
        obtain rfl : l = l' := (List.cons.inj hl).1
        rfl
    · rintro text (htext | ⟨candidates, htext⟩)
      · rw [← single.inj htext]
        exact q.starts_kept (h l List.mem_cons_self) _
      · cases htext
  | l :: m :: rest =>
    let names := (l :: m :: rest).map (·.name)
    have hlongest : LongestStart (common names) names := longestStart_common (List.cons_ne_nil _ _)
    have hanswer : answer q (l :: m :: rest) =
        .several (q.kept ++ common names) ((l :: m :: rest).map Listed.display) := rfl
    rw [hanswer]
    refine ⟨by simp, by simp, ?_, ?_⟩
    · intro text candidates
      rw [several.injEq]
      constructor
      · rintro ⟨rfl, rfl⟩
        exact ⟨by simp, rfl, common names, hlongest, rfl⟩
      · rintro ⟨-, rfl, start, hstart, rfl⟩
        exact ⟨by rw [hstart.unique hlongest], rfl⟩
    · rintro text (htext | ⟨candidates, htext⟩)
      · cases htext
      · have htyped : q.typed.toList <+: (common names).toList :=
          hlongest.2 q.typed (List.forall_mem_map.2 h)
        rw [← (several.inj htext).1, ← String.append_empty (s := q.kept ++ common names)]
        exact q.starts_kept htyped ""

/-! ## The question of a line -/

theorem cutAtSpace?_eq_none_iff {s : List Char} : cutAtSpace? s = Option.none ↔ ' ' ∉ s := by
  induction s with
  | nil => simp [cutAtSpace?]
  | cons c cs ih =>
    by_cases hc : c = ' '
    · simp [cutAtSpace?, hc]
    · simp [cutAtSpace?, hc, ih, Ne.symm hc]

theorem cutAtSpace?_eq_some_iff {s a b : List Char} : cutAtSpace? s = some (a, b) ↔ s = a ++ ' ' :: b ∧ ' ' ∉ a := by
  constructor
  · intro h
    induction s generalizing a with
    | nil => cases h
    | cons c cs ih =>
      by_cases hc : c = ' '
      · simp only [cutAtSpace?, hc, if_true, Option.some.injEq, Prod.mk.injEq] at h
        obtain ⟨rfl, rfl⟩ := h
        exact ⟨by rw [hc]; rfl, List.not_mem_nil⟩
      · simp only [cutAtSpace?, hc, if_false, Option.map_eq_some_iff, Prod.mk.injEq, Prod.exists] at h
        obtain ⟨a', b', hcut, rfl, rfl⟩ := h
        obtain ⟨rfl, hspace⟩ := ih hcut
        exact ⟨rfl, by simp [hspace, Ne.symm hc]⟩
  · rintro ⟨rfl, hspace⟩
    apply cutAtSpace?_append
    rintro c hc rfl
    exact hspace hc

/-- an operand is cut behind its last slash -/
theorem ofOperand_eq_iff {operand directory typed : String} : PartialPath.ofOperand operand = ⟨directory, typed⟩ ↔
    operand = directory ++ typed ∧ (directory = "" ∨ ∃ d, directory = d ++ "/") ∧ '/' ∉ typed.toList := by
  constructor
  · intro h
    have hdirectory : directory = (PartialPath.ofOperand operand).directory := by rw [h]
    have htyped : typed = (PartialPath.ofOperand operand).name := by rw [h]
    have hcut := Text.cutAfterLast_append Path.isSlash operand.toList
    refine ⟨?_, hdirectory ▸ PartialPath.directory_cases operand, ?_⟩
    · rw [hdirectory, htyped, PartialPath.ofOperand, ← String.ofList_append, hcut, String.ofList_toList]
    · intro hslash
      rw [htyped, PartialPath.ofOperand, String.toList_ofList] at hslash
      exact absurd (Text.not_sep_of_mem_cutAfterLast hslash) (by decide)
  · rintro ⟨rfl, hdirectory, hslash⟩
    have hwhole : Path.Whole typed.toList := Path.whole_iff.2 hslash
    rcases hdirectory with rfl | ⟨d, rfl⟩
    · simp [PartialPath.ofOperand, Text.cutAfterLast_of_none hwhole]
    · rw [PartialPath.ofOperand, Path.cutAfterLast_slash d hwhole]
      simp

/-- the question of a line; none if it is blank -/
def question? (line : String) : Option Question :=
  let text := Text.trimStart line
  if text.isEmpty then Option.none
  else
    match cutAtSpace? text.toList with
    | Option.none => some (.word text)
    | some (command, rest) =>
      let p := PartialPath.ofOperand (Text.trimStart (String.ofList rest))
      some (.operand (String.ofList command) p.directory p.name)

theorem asks_iff {line : String} {q : Question} : Asks line q ↔ question? line = some q := by
  constructor
  · intro h
    unfold question?
    cases h with
    | word htext hne hspace =>
      have hcut := cutAtSpace?_eq_none_iff.2 hspace
      simp only [Text.trimStart_eq_iff.2 htext, String.isEmpty_iff, hne, if_false, hcut]
    | operand htext hspace hoperand hdirectory hslash =>
      rename_i command rest directory typed
      have hcut : cutAtSpace? (command ++ " " ++ rest).toList = some (command.toList, rest.toList) :=
        cutAtSpace?_eq_some_iff.2 ⟨by simp, hspace⟩
      have hp := ofOperand_eq_iff.2 ⟨Eq.refl (directory ++ typed), hdirectory, hslash⟩
      have hne : command ++ " " ++ rest ≠ "" := by simp
      simp only [Text.trimStart_eq_iff.2 htext, Text.trimStart_eq_iff.2 hoperand, String.isEmpty_iff, hne, if_false, hcut,
        String.ofList_toList, hp]
  · intro h
    unfold question? at h
    dsimp only at h
    split at h
    · cases h
    · rename_i hne
      rw [String.isEmpty_iff] at hne
      split at h
      · rename_i hcut
        cases h
        exact .word (Text.trimStart_eq_iff.1 rfl) hne (cutAtSpace?_eq_none_iff.1 hcut)
      · rename_i command rest hcut
        cases h
        obtain ⟨htext, hspace⟩ := cutAtSpace?_eq_some_iff.1 hcut
        obtain ⟨hoperand, hdirectory, hslash⟩ := ofOperand_eq_iff.1 (Eq.refl (PartialPath.ofOperand _))
        have hline : Text.trimStart line = String.ofList command ++ " " ++ String.ofList rest := by
          rw [← String.toList_inj, htext]
          simp
        exact .operand (Text.trimStart_eq_iff.1 hline) (by simpa using hspace) (Text.trimStart_eq_iff.1 hoperand) hdirectory
          hslash

/-- a line that is not blank asks just one question -/
theorem exists_asks_iff {line : String} (h : Text.isBlankText line = false) : ∃ q, ∀ q', Asks line q' ↔ q' = q := by
  have hne : ¬(Text.trimStart line).isEmpty = true := by
    rw [String.isEmpty_iff, Text.trimStart_eq_empty_iff, h]
    exact Bool.false_ne_true
  have hsome : ∃ q, question? line = some q := by
    unfold question?
    dsimp only
    rw [if_neg hne]
    split
    · exact ⟨_, rfl⟩
    · exact ⟨_, rfl⟩
  obtain ⟨q, hq⟩ := hsome
  refine ⟨q, ?_⟩
  intro q'
  rw [asks_iff, hq, Option.some.injEq, eq_comm]

/-! ## What is found -/

/-- the names that are found for a question -/
def found (shell : Shell) (cwd : String) : Question → List Listed
  | .word typed => (shell.registry.names.filter (startsWith · typed)).map (⟨·, false⟩)
  | .operand command directory typed =>
    match OperandKind.ofCommand? command with
    | Option.none => []
    | some kind => eligible shell.files cwd kind ⟨directory, typed⟩

theorem ofCommand_eq_answer (registry : Registry) (word : String) : ofCommand registry word =
    answer (.word word) ((registry.names.filter (startsWith · word)).map (⟨·, false⟩)) := by
  unfold ofCommand
  generalize registry.names.filter (startsWith · word) = names
  have hnames : (names.map (Listed.mk · false)).map (·.name) = names := by
    rw [List.map_map]
    exact List.map_id names
  have hshown : (names.map (Listed.mk · false)).map Listed.display = names := by
    rw [List.map_map]
    exact List.map_id names
  match names with
  | [] => rfl
  | [n] => simp [answer, Question.kept]
  | n :: m :: rest =>
    simp only [List.map_cons] at hnames hshown ⊢
    simp only [answer, Question.kept, List.map_cons, hnames, hshown, String.empty_append]

theorem ofOperand_eq_answer (files : FileSystem) (cwd command : String) (kind : OperandKind) (operand : String) :
    ofOperand files cwd command kind operand =
      answer (.operand command (PartialPath.ofOperand operand).directory (PartialPath.ofOperand operand).name)
        (eligible files cwd kind (PartialPath.ofOperand operand)) := by
  unfold ofOperand
  dsimp only
  generalize eligible files cwd kind (PartialPath.ofOperand operand) = found
  match found with
  | [] => rfl
  | [l] => rfl
  | l :: m :: rest => rfl

/-- a line is completed by answering its question -/
theorem complete_eq_answer {line : String} {q : Question} (h : Asks line q) (shell : Shell) (cwd : String) :
    shell.complete cwd line = answer q (found shell cwd q) := by
  rw [asks_iff] at h
  unfold question? at h
  unfold Shell.complete
  dsimp only at h ⊢
  split at h
  · cases h
  · rename_i hne
    rw [if_neg hne]
    cases hcut : cutAtSpace? (Text.trimStart line).toList with
    | none =>
      rw [hcut, Option.some.injEq] at h
      rw [← h]
      exact ofCommand_eq_answer shell.registry _
    | some cut =>
      rw [hcut, Option.some.injEq] at h
      rw [← h]
      dsimp only [found]
      cases OperandKind.ofCommand? (String.ofList cut.1) with
      | none => rfl
      | some kind => exact ofOperand_eq_answer shell.files cwd _ kind _

/-- a blank line is completed to nothing -/
theorem complete_of_blank {line : String} (h : Text.isBlankText line = true) (shell : Shell) (cwd : String) :
    shell.complete cwd line = .none := by
  have hempty : (Text.trimStart line).isEmpty = true := String.isEmpty_iff.2 (Text.trimStart_eq_empty_iff.2 h)
  unfold Shell.complete
  dsimp only
  rw [if_pos hempty]

theorem takes_iff {command : String} {l : Listed} :
    Takes command l ↔ ∃ kind, OperandKind.ofCommand? command = some kind ∧ kind.admits l = true := by
  unfold Takes OperandKind.ofCommand?
  by_cases hdirectory : command ∈ ["cd", "ls", "tree"]
  · have hne : command ≠ "cat" := by
      rintro rfl
      exact absurd hdirectory (by decide)
    simp [hdirectory, hne, OperandKind.admits]
  · by_cases hcat : command = "cat"
    · simp [hcat, OperandKind.admits]
    · simp [hdirectory, hcat]

theorem mem_found_iff {shell : Shell} {cwd : String} {q : Question} {l : Listed} :
    l ∈ found shell cwd q ↔ Eligible shell cwd q l := by
  cases q with
  | word typed =>
    simp only [found, Eligible, startsWith, List.mem_map, List.mem_filter, List.isPrefixOf_iff_prefix]
    constructor
    · rintro ⟨n, ⟨hn, htyped⟩, rfl⟩
      exact ⟨hn, rfl, htyped⟩
    · rintro ⟨hn, hfile, htyped⟩
      exact ⟨l.name, ⟨hn, htyped⟩, by rw [← hfile]⟩
  | operand command directory typed =>
    have hkind : ∀ e : Entry, (l.isDir = true ↔ ∃ cs, e = .dir cs) ↔ l.isDir = e.isDir := by
      intro e
      rw [← Entry.isDir_iff]
      exact Bool.eq_iff_iff.symm
    have hsearched : PartialPath.searched ⟨directory, typed⟩ cwd =
        if directory = "" then cwd else Path.resolve (some directory) cwd := by
      split_ifs with h
      · rw [PartialPath.searched, h, Path.resolve_empty]
      · rfl
    simp only [Eligible, takes_iff, ← hsearched, hkind, ← FileSystem.mem_listing, found]
    cases OperandKind.ofCommand? command with
    | none => simp
    | some kind =>
      simp only [eligible, startsWith, List.mem_filter, Bool.and_eq_true, List.isPrefixOf_iff_prefix, Option.some.injEq,
        exists_eq_left']
      tauto

/-- a line is answered by what is found for its question -/
theorem answers_of_asks {line : String} {q : Question} (h : Asks line q) (shell : Shell) (cwd : String) :
    Answers q (found shell cwd q) (shell.complete cwd line) := by
  rw [complete_eq_answer h]
  exact answers_answer q fun l hl => (mem_found_iff.1 hl).starts

/-- what is completed to something asks a question -/
theorem exists_asks_of_ne_none {shell : Shell} {cwd line : String} (h : shell.complete cwd line ≠ .none) :
    ∃ q, Asks line q := by
  have hblank : Text.isBlankText line = false := by
    rw [← Bool.not_eq_true]
    exact fun hblank => h (complete_of_blank hblank shell cwd)
  obtain ⟨q, hq⟩ := exists_asks_iff hblank
  exact ⟨q, (hq q).2 rfl⟩

end Completion

/-! ## The order of what is found -/

namespace Completion

/-- the order in which names are shown: that of the registry, or directories first and each group by name -/
def InOrder (shell : Shell) : Question → List Listed → Prop
  | .word _, found => (found.map (·.name)).Sublist shell.registry.names
  | .operand _ _ _, found => found.Pairwise Listed.Before

theorem found_in_order (shell : Shell) (hnames : shell.registry.names.Nodup) (cwd : String) (q : Question) :
    ((found shell cwd q).map (·.name)).Nodup ∧ InOrder shell q (found shell cwd q) := by
  cases q with
  | word typed =>
    have hsub : ((found shell cwd (.word typed)).map (·.name)).Sublist shell.registry.names := by
      have hback : (found shell cwd (.word typed)).map (·.name) = shell.registry.names.filter (startsWith · typed) := by
        rw [found, List.map_map]
        exact List.map_id _
      rw [hback]
      exact List.filter_sublist
    exact ⟨hsub.nodup hnames, hsub⟩
  | operand command directory typed =>
    simp only [found, InOrder]
    cases OperandKind.ofCommand? command with
    | none => exact ⟨List.nodup_nil, List.Pairwise.nil⟩
    | some kind =>
      obtain ⟨children, hordered, hlisting⟩ := shell.files.exists_listing (PartialPath.searched ⟨directory, typed⟩ cwd)
      simp only [eligible, hlisting]
      exact ⟨(List.filter_sublist.map _).nodup (Listed.nodup_ofChildren hordered),
        (Listed.pairwise_ofChildren hordered).filter _⟩

end Completion

/--
**Completion is exact.** A blank line is completed to nothing. Any other line asks one question, and the names that are
found are those that are eligible, each once, in the order of the registry or with the directories first and each group by
name. The line is completed to nothing if none is found, and to the only one. Else the candidates are all of them, with a
slash behind each directory, and the line gets the longest start that they share. So it goes on from what was typed.
-/
theorem complete_answers (files : FileSystem) (entries : List RegistryEntry) (cwd line : String) :
    let shell : Shell := ⟨files, .ofList entries⟩
    ((∀ c ∈ line.toList, Text.isBlank c = true) ∧ shell.complete cwd line = .none) ∨
      ∃ q found, (∀ q', Completion.Asks line q' ↔ q' = q) ∧ (∀ l, l ∈ found ↔ Completion.Eligible shell cwd q l) ∧
        (found.map (·.name)).Nodup ∧ Completion.InOrder shell q found ∧
        Completion.Answers q found (shell.complete cwd line) := by
  intro shell
  cases hblank : Text.isBlankText line with
  | true => exact Or.inl ⟨List.all_eq_true.1 hblank, Completion.complete_of_blank hblank shell cwd⟩
  | false =>
    obtain ⟨q, hq⟩ := Completion.exists_asks_iff hblank
    obtain ⟨hnodup, horder⟩ := Completion.found_in_order shell (Registry.nodup_ofList entries) cwd q
    refine Or.inr ⟨q, Completion.found shell cwd q, hq, fun l => Completion.mem_found_iff, hnodup, horder, ?_⟩
    rw [Completion.complete_eq_answer ((hq q).2 rfl)]
    apply Completion.answers_answer
    intro l hl
    exact (Completion.mem_found_iff.1 hl).starts

/-- blanks before and behind the command, and two names that part inside of a byte sequence -/
theorem complete_answers_two_bytes :
    let shell : Shell := ⟨.ofChildren [("müde", .dir []), ("Müll", .text ""), ("mýr", .text "")], .standard⟩
    let question := Completion.Question.operand "cat" "" "m"
    Completion.Asks " cat  m" question ∧
      ∃ found, (∀ l, l ∈ found ↔ Completion.Eligible shell "/" question l) ∧
        Completion.Answers question found (.several "cat m" ["müde/", "mýr"]) := by
  intro shell question
  have hblank : ∀ c ∈ " ".toList, Text.isBlank c = true := List.all_eq_true.1 (by decide)
  have hline : Text.Indents ("cat" ++ " " ++ " m") " cat  m" := ⟨" ", by decide, hblank, by decide⟩
  have hoperand : Text.Indents ("" ++ "m") " m" := ⟨" ", by decide, hblank, by decide⟩
  have hasks : Completion.Asks " cat  m" question := .operand hline (by decide) hoperand (Or.inl rfl) (by decide)
  have hcompleted : shell.complete "/" " cat  m" = .several "cat m" ["müde/", "mýr"] := by decide +kernel
  rcases complete_answers shell.files (Builtin.all.map .ofBuiltin) "/" " cat  m" with
    ⟨-, hnone⟩ | ⟨q, found, hq, hfound, -, -, hanswers⟩
  · cases hcompleted.symm.trans hnone
  · obtain rfl := (hq question).1 hasks
    refine ⟨hasks, found, hfound, ?_⟩
    rw [← hcompleted]
    exact hanswers

end PageShell
