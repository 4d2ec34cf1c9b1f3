/-
The order in which Tab writes candidates into the field.

Each press but the first selects the candidate behind the selected one, and writes its line. The first press selects the
first candidate, but writes its line only if the common start of all candidates is no longer than what was typed; else it
writes that start, and the first candidate has its turn when all others have had theirs (`tab_writes_in_order`). A line
with a candidate in it is never empty, whatever the names are (`Shell.filled_ne_empty`), so Tab is never ignored.
-/
import PageShell.Proofs.Page.Candidates
import PageShell.Proofs.Shell.Completions

namespace PageShell

/-! ## Lines with a candidate in them -/

/-- a line with a candidate in place of its last word -/
def TabCycle.filled (base candidate : String) : String :=
  String.ofList (Text.cutAfterLast endsWord base.toList).1 ++ candidate

theorem TabCycle.filled_eq_empty_iff {base candidate : String} :
    filled base candidate = "" ↔ (Text.cutAfterLast endsWord base.toList).1 = [] ∧ candidate = "" := by
  simp [filled]

/-- something stands up to the last separator if there is one -/
theorem Text.fst_cutAfterLast_ne_nil {isSep : Char → Bool} {s : List Char} {c : Char} (hc : c ∈ s)
    (hsep : isSep c = true) : (cutAfterLast isSep s).1 ≠ [] := by
  intro hnone
  have hwhole := cutAfterLast_append isSep s
  rw [hnone, List.nil_append] at hwhole
  rw [← hwhole] at hc
  rw [not_sep_of_mem_cutAfterLast hc] at hsep
  cases hsep

/-- several candidates are at least two, and none of them leaves the line empty -/
theorem Shell.filled_ne_empty {shell : Shell} {cwd text line : String} {candidates : List String}
    (h : shell.complete cwd text = .several line candidates) :
    text ≠ "" ∧ 2 ≤ candidates.length ∧ ∀ c ∈ candidates, TabCycle.filled line c ≠ "" := by
  obtain ⟨q, hasks⟩ := Completion.exists_asks_of_ne_none (h.trans_ne nofun)
  obtain ⟨htwo, rfl, start, -, rfl⟩ := ((Completion.answers_of_asks hasks shell cwd).several_iff line candidates).1 h
  refine ⟨?_, by rwa [List.length_map], ?_⟩
  · rintro rfl
    rw [Completion.complete_of_blank (by decide)] at h
    cases h
  · intro c hc
    obtain ⟨l, hl, rfl⟩ := List.mem_map.1 hc
    cases hasks with
    | @word typed htext hne hspace =>
      -- a name that goes on from a word is not empty
      have hname : l.name ≠ "" := by
        intro hempty
        have hbegins := (Completion.mem_found_iff.1 hl).starts
        rw [hempty, String.toList_empty, List.prefix_nil] at hbegins
        exact hne (String.toList_eq_nil_iff.1 hbegins)
      exact fun hempty => Listed.display_ne_empty hname (TabCycle.filled_eq_empty_iff.1 hempty).2
    | @operand command rest directory typed htext hspace hoperand hdirectory hslash =>
      -- the command and the space behind it stay
      have hmem : ' ' ∈ (Completion.Question.kept (.operand command directory typed) ++ start).toList := by
        simp [Completion.Question.kept]
      have hspace : TabCycle.endsWord ' ' = true := by decide
      exact fun hempty => Text.fst_cutAfterLast_ne_nil hmem hspace (TabCycle.filled_eq_empty_iff.1 hempty).1

/-! ## Pressing Tab -/

namespace Field

variable {σ : Type} {host : Host σ} {f : Field}

/-- where candidates are on show, Tab selects the next one -/
theorem complete_of_active (hvalue : f.value ≠ "") (hsome : f.cycle.candidates ≠ []) (s : σ) :
    f.complete host s = (⟨f.cycle.advance.completion?.getD f.value, f.cycle.advance⟩, s) := by
  have hempty : f.value.isEmpty = false := by simpa using hvalue
  have hactive : f.cycle.isActive = true := by simpa [TabCycle.isActive] using hsome
  simp [Field.complete, hempty, hactive]

/-- where none are, it brings them up, and writes what they share if that is longer than what was typed -/
theorem complete_of_several {text : String} (hvalue : text ≠ "") {s : σ} {base : String} {candidates : List String}
    (h : host.complete text s = (.several base candidates, s)) :
    (⟨text, .idle⟩ : Field).complete host s =
      (⟨if text.utf8ByteSize < base.utf8ByteSize then base
        else (TabCycle.start base candidates).completion?.getD text, .start base candidates⟩, s) := by
  have hempty : text.isEmpty = false := by simpa using hvalue
  have hactive : TabCycle.idle.isActive = false := rfl
  simp only [Field.complete, hempty, hactive, h, Bool.false_eq_true, if_false]
  split <;> rfl

variable {t : Terminal} {text line : String} {candidates : List String}

/-- the first press on a text that has several candidates -/
theorem complete_first (h : t.complete text = .several line candidates) (submitted : Option String) :
    handleAll Page.host [.key .tab] ⟨text, .idle⟩ (t, submitted) =
      (⟨if text.utf8ByteSize < line.utf8ByteSize then line
        else (TabCycle.start line candidates).completion?.getD text, .start line candidates⟩, t, submitted) := by
  have hhost : Page.host.complete text (t, submitted) = (.several line candidates, (t, submitted)) := by
    simp [Page.host, h]
  exact complete_of_several (Shell.filled_ne_empty h).1 hhost

/-- Tab pressed some times on such a text -/
theorem complete_in_order (h : t.complete text = .several line candidates) (submitted : Option String) (k : Nat) :
    let r := handleAll Page.host (List.replicate (k + 1) (.key .tab)) ⟨text, .idle⟩ (t, submitted)
    r.1.cycle = ⟨line, candidates, k % candidates.length⟩ ∧ r.1.value ≠ "" ∧
      (0 < k ∨ line.utf8ByteSize ≤ text.utf8ByteSize →
        candidates[k % candidates.length]?.map (TabCycle.filled line) = some r.1.value) := by
  obtain ⟨-, htwo, hfilled⟩ := Shell.filled_ne_empty h
  have hlt : ∀ i, i % candidates.length < candidates.length := fun i => Nat.mod_lt i (by omega)
  have hsome : candidates ≠ [] := List.ne_nil_of_length_pos (by omega)
  have hline : ∀ i, ∃ v, candidates[i % candidates.length]?.map (TabCycle.filled line) = some v ∧ v ≠ "" := by
    intro i
    rw [List.getElem?_eq_getElem (hlt i), Option.map_some]
    exact ⟨_, rfl, hfilled _ (List.getElem_mem (hlt i))⟩
  induction k with
  | zero =>
    obtain ⟨v, hv, hne⟩ := hline 0
    rw [Nat.zero_mod] at hv
    have hfirst : (TabCycle.start line candidates).completion? = some v := hv
    rw [Nat.zero_add, List.replicate_one, complete_first h, Nat.zero_mod, hfirst, hv]
    by_cases hlonger : text.utf8ByteSize < line.utf8ByteSize
    · have hbase : line ≠ "" := by
        rintro rfl
        exact absurd hlonger (Nat.not_lt_zero _)
      rw [if_pos hlonger]
      exact ⟨rfl, hbase, fun hk => by omega⟩
    · rw [if_neg hlonger]
      exact ⟨rfl, hne, fun _ => rfl⟩
  | succ k ih =>
    obtain ⟨hcycle, hvalue, -⟩ := ih
    rw [List.replicate_succ', handleAll_append]
    generalize handleAll Page.host (List.replicate (k + 1) (.key .tab)) ⟨text, .idle⟩ (t, submitted) = r at hcycle hvalue
    obtain ⟨f, s⟩ := r
    dsimp only at hcycle hvalue
    have hactive : f.cycle.candidates ≠ [] := by rwa [hcycle]
    have hpressed : handleAll Page.host [.key .tab] f s = _ := complete_of_active hvalue hactive s
    have hadvance : f.cycle.advance = ⟨line, candidates, (k + 1) % candidates.length⟩ := by
      rw [TabCycle.advance_of_lt (by rw [hcycle]; exact hlt k), hcycle]
      simp
    obtain ⟨v, hv, hne⟩ := hline (k + 1)
    have hnext : f.cycle.advance.completion? = some v := by rw [hadvance]; exact hv
    rw [hpressed, hnext, hadvance]
    exact ⟨rfl, hne, fun _ => hv⟩

end Field

/--
**Tab writes the candidates in their order, from the first or the second one on.** Let a text that has several candidates
be typed into the field, and then Tab be pressed again and again. The candidates stay on show, and each press but the first
selects the one behind, around the list, and writes its line. The first press selects the first one, but if what they share
is longer than what was typed, it writes that: then the second press writes the second candidate, and the first one is
written only after the last.
-/
theorem tab_writes_in_order (t : Terminal) (f : Field) {text line : String} {candidates : List String}
    (h : t.complete text = .several line candidates) :
    let n := candidates.length
    let pressed := fun k => (Field.handleAll Page.host (.input text :: List.replicate k (.key .tab)) f (t, none)).1
    2 ≤ n ∧ (∀ k, (pressed (k + 1)).cycle = ⟨line, candidates, k % n⟩) ∧
      (text.utf8ByteSize < line.utf8ByteSize → (pressed 1).value = line) ∧
      (line.utf8ByteSize ≤ text.utf8ByteSize → candidates[0]?.map (TabCycle.filled line) = some (pressed 1).value) ∧
      ∀ k, 0 < k → candidates[k % n]?.map (TabCycle.filled line) = some (pressed (k + 1)).value := by
  intro n pressed
  have htyped : ∀ k, pressed k = (Field.handleAll Page.host (List.replicate k (.key .tab)) ⟨text, .idle⟩ (t, none)).1 :=
    fun _ => rfl
  refine ⟨(Shell.filled_ne_empty h).2.1, ?_, ?_, ?_, ?_⟩
  · intro k
    rw [htyped]
    exact (Field.complete_in_order h none k).1
  · intro hlonger
    rw [htyped, List.replicate_one, Field.complete_first h, if_pos hlonger]
  · intro hshorter
    rw [htyped, ← Nat.zero_mod n]
    exact (Field.complete_in_order h none 0).2.2 (Or.inr hshorter)
  · intro k hk
    rw [htyped]
    exact (Field.complete_in_order h none k).2.2 (Or.inl hk)

/-- two commands begin alike: Tab writes how, then the second one, and then the first -/
theorem tab_writes_in_order_which :
    let pressed := fun k =>
      (Field.handleAll Page.host (.input "w" :: List.replicate k (.key .tab)) .blank (.start, none)).1
    Terminal.start.complete "w" = .several "wh" ["whoami", "which"] ∧
      (pressed 1).value = "wh" ∧ (pressed 2).value = "which" ∧ (pressed 3).value = "whoami" := by
  intro pressed
  have hseveral : Terminal.start.complete "w" = .several "wh" ["whoami", "which"] := by decide +kernel
  obtain ⟨-, -, hbase, -, hnext⟩ := tab_writes_in_order .start .blank hseveral
  have hsecond := hnext 1 (by decide)
  have hthird := hnext 2 (by decide)
  refine ⟨hseveral, hbase (by decide), ?_, ?_⟩
  · exact (Option.some.inj hsecond).symm.trans (by decide +kernel)
  · exact (Option.some.inj hthird).symm.trans (by decide +kernel)

end PageShell
