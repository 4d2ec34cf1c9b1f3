/-
Completing what a completion has written.

What several candidates share goes on from what was typed, so writing it into the line changes neither the question that
the line asks nor what is found: the line that is completed asks for the same word, or for an operand in the same directory
(`Asks.again`), and the names that start with what was typed are those that start with what they share (`found_retyped`).
That takes names which survive being cut out of a line: none begins with a blank, a registered one holds no space, and a
file's no slash (`Question.Admits`).
-/
import PageShell.Proofs.FileSystem.Descent
import PageShell.Proofs.Shell.Completions

namespace PageShell

/-! ## Texts that begin with no blank -/

namespace Text

theorem Flush.beginning {s t : String} (ht : Flush t) (h : s.toList <+: t.toList) : Flush s := by
  intro c hc
  obtain ⟨rest, hrest⟩ := h
  apply ht
  rw [← hrest, List.head?_append, Option.mem_def.1 hc]
  rfl

theorem Flush.append {s t : String} (hs : Flush s) (ht : s = "" → Flush t) : Flush (s ++ t) := by
  intro c hc
  rw [String.toList_append, List.head?_append] at hc
  cases hhead : s.toList.head? with
  | some d =>
    rw [hhead] at hc
    exact hs c (by rwa [hhead])
  | none =>
    rw [hhead] at hc
    exact ht (String.toList_eq_nil_iff.1 (List.head?_eq_none_iff.1 hhead)) c hc

theorem Unbroken.flush {s : String} (h : Unbroken s) : Flush s :=
  fun c hc => h c (List.mem_of_mem_head? hc)

end Text

namespace Completion

/-! ## Asking again -/

namespace Question

/-- the same question with another beginning of the name -/
def retyped : Question → String → Question
  | word _, start => word start
  | operand command directory _, start => operand command directory start

@[simp] theorem kept_retyped (q : Question) (start : String) : (q.retyped start).kept = q.kept := by
  cases q <;> rfl

/-- a name that is read back from a line as what was typed -/
def Admits : Question → String → Prop
  | word _, name => Text.Flush name ∧ ' ' ∉ name.toList
  | operand _ _ _, name => Text.Flush name ∧ '/' ∉ name.toList

/-- so is every beginning of it -/
theorem Admits.beginning {q : Question} {start name : String} (h : q.Admits name) (hstart : start.toList <+: name.toList) :
    q.Admits start := by
  cases q with
  | word typed => exact ⟨h.1.beginning hstart, fun hspace => h.2 (hstart.subset hspace)⟩
  | operand command directory typed => exact ⟨h.1.beginning hstart, fun hslash => h.2 (hstart.subset hslash)⟩

end Question

/-- a line with more of the name asks the same, as far as it is typed -/
theorem Asks.again {line start : String} {q : Question} (h : Asks line q) (hadmits : q.Admits start)
    (htyped : q.typed.toList <+: start.toList) : Asks (q.kept ++ start) (q.retyped start) := by
  cases h with
  | @word typed htext hne hspace =>
    obtain ⟨hflush, hnone⟩ := hadmits
    have hline : Question.kept (.word typed) ++ start = start := String.empty_append
    have hstart : start ≠ "" := by
      rintro rfl
      rw [String.toList_empty, List.prefix_nil] at htyped
      exact hne (String.toList_eq_nil_iff.1 htyped)
    rw [hline]
    exact .word hflush.indents hstart hnone
  | @operand command rest directory typed htext hspace hoperand hdirectory hslash =>
    obtain ⟨hflush, hnone⟩ := hadmits
    -- the line keeps its first character, and the operand its own, if it had one
    have hcommand : Text.Flush (command ++ " ") := htext.flush.beginning (by simp)
    have hfirst : Text.Flush directory := hoperand.flush.beginning (by simp)
    have hwhole : Text.Flush (directory ++ start) := hfirst.append fun _ => hflush
    have htext' : Question.kept (.operand command directory typed) ++ start = command ++ " " ++ (directory ++ start) := by
      rw [Question.kept, String.append_assoc]
    have hline : Text.Flush (command ++ " " ++ (directory ++ start)) :=
      hcommand.append fun hempty => absurd hempty (by simp)
    rw [htext']
    exact .operand hline.indents hspace hwhole.indents hdirectory hnone

theorem startsWith_eq_of {name typed start : String} (htyped : typed.toList <+: start.toList)
    (hstart : typed.toList <+: name.toList → start.toList <+: name.toList) :
    startsWith name start = startsWith name typed := by
  rw [startsWith, startsWith, Bool.eq_iff_iff, List.isPrefixOf_iff_prefix, List.isPrefixOf_iff_prefix]
  exact ⟨htyped.trans, hstart⟩

/-- when what is typed grows to something that all names found share, the same names are found -/
theorem found_retyped {shell : Shell} {cwd start : String} {q : Question} (htyped : q.typed.toList <+: start.toList)
    (hshared : ∀ l ∈ found shell cwd q, start.toList <+: l.name.toList) :
    found shell cwd (q.retyped start) = found shell cwd q := by
  cases q with
  | word typed =>
    simp only [found, Question.retyped]
    congr 1
    apply List.filter_congr
    intro name hname
    apply startsWith_eq_of htyped
    intro hstarts
    exact hshared ⟨name, false⟩ (mem_found_iff.2 ⟨hname, rfl, hstarts⟩)
  | operand command directory typed =>
    simp only [found, Question.retyped] at hshared ⊢
    cases hkind : OperandKind.ofCommand? command with
    | none => rfl
    | some kind =>
      rw [hkind] at hshared
      apply List.filter_congr
      intro l hl
      cases hadmits : kind.admits l with
      | false => rfl
      | true =>
        apply startsWith_eq_of htyped
        intro hstarts
        apply hshared l
        refine List.mem_filter.2 ⟨hl, ?_⟩
        rw [hadmits, Bool.true_and, startsWith, List.isPrefixOf_iff_prefix]
        exact hstarts

/-- where no name begins with a blank, no registered one holds a space and no file's a slash, all names found do -/
theorem admits_of_found {shell : Shell} (hregistry : ∀ n ∈ shell.registry.names, Text.Unbroken n)
    (hfiles : shell.files.rootEntry.NamesAll fun n => '/' ∉ n.toList ∧ Text.Flush n) {cwd : String} {q : Question}
    {l : Listed} (hl : l ∈ found shell cwd q) : q.Admits l.name := by
  have heligible := mem_found_iff.1 hl
  cases q with
  | word typed =>
    have hunbroken := hregistry l.name heligible.1
    refine ⟨hunbroken.flush, ?_⟩
    intro hspace
    exact absurd (hunbroken ' ' hspace) (by decide)
  | operand command directory typed =>
    obtain ⟨-, -, children, e, hlookup, hmem, -⟩ := heligible
    have hnames := (Entry.namesAll_of_descend hfiles hlookup).2
    obtain ⟨hslash, hflush⟩ := (Entry.namesAll_of_find? hnames (FileSystem.find?_of_lookup hlookup hmem)).1
    exact ⟨hflush, hslash⟩

end Completion

/--
**What candidates share is completed to itself.** No registered name holds a blank, and no name of a file holds a slash or
begins with a blank. If a line is completed to what several candidates share, then so is that, with the same candidates in
the same order.
-/
theorem complete_common_start {shell : Shell} (hregistry : ∀ n ∈ shell.registry.names, Text.Unbroken n)
    (hfiles : shell.files.rootEntry.NamesAll fun n => '/' ∉ n.toList ∧ Text.Flush n) {cwd line text : String}
    {candidates : List String} (h : shell.complete cwd line = .several text candidates) :
    shell.complete cwd text = .several text candidates := by
  obtain ⟨q, hasks⟩ := Completion.exists_asks_of_ne_none (h.trans_ne nofun)
  obtain ⟨htwo, hcandidates, start, hlongest, rfl⟩ :=
    ((Completion.answers_of_asks hasks shell cwd).several_iff text candidates).1 h
  have hstarts : ∀ l ∈ Completion.found shell cwd q, q.typed.toList <+: l.name.toList :=
    fun l hl => (Completion.mem_found_iff.1 hl).starts
  have hshared : ∀ l ∈ Completion.found shell cwd q, start.toList <+: l.name.toList :=
    fun l hl => hlongest.1 l.name (List.mem_map_of_mem hl)
  have htyped : q.typed.toList <+: start.toList := hlongest.2 q.typed (List.forall_mem_map.2 hstarts)
  obtain ⟨l, hl⟩ := List.exists_mem_of_length_pos (Nat.lt_of_lt_of_le Nat.zero_lt_two htwo)
  have hadmits : q.Admits start := (Completion.admits_of_found hregistry hfiles hl).beginning (hshared l hl)
  have hfound := Completion.found_retyped htyped hshared
  have hagain := Completion.answers_of_asks (hasks.again hadmits htyped) shell cwd
  rw [hfound] at hagain
  exact (hagain.several_iff _ _).2 ⟨htwo, hcandidates, start, hlongest, by rw [Completion.Question.kept_retyped]⟩

/-- blanks in front of the line, a way up, and names of two words: what they share ends with a space -/
theorem complete_common_start_space :
    let files := FileSystem.ofChildren
      [("blog", .dir []), ("übung", .dir [("a b", .text ""), ("a bc", .dir []), ("a c", .text "")])]
    let shell : Shell := ⟨files, .standard⟩
    (∀ n ∈ shell.registry.names, Text.Unbroken n) ∧
      (shell.files.rootEntry.NamesAll fun n => '/' ∉ n.toList ∧ Text.Flush n) ∧
      shell.complete "/blog" "  cat   ../übung/a" = .several "cat ../übung/a " ["a bc/", "a b", "a c"] ∧
      shell.complete "/blog" "cat ../übung/a " = .several "cat ../übung/a " ["a bc/", "a b", "a c"] := by
  intro files shell
  have hregistry : ∀ n ∈ shell.registry.names, Text.Unbroken n := by decide
  have hfiles : shell.files.rootEntry.NamesAll fun n => '/' ∉ n.toList ∧ Text.Flush n := by decide +kernel
  have hseveral : shell.complete "/blog" "  cat   ../übung/a" = .several "cat ../übung/a " ["a bc/", "a b", "a c"] := by
    decide +kernel
  exact ⟨hregistry, hfiles, hseveral, complete_common_start hregistry hfiles hseveral⟩

end PageShell
