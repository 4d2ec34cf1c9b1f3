/-
Walking through the candidates of a completion.

A completion offers candidates only if there are any, and none of them is empty (`Shell.offers_complete`), for the names
of commands and of loaded files are not. So a field that shows candidates has one of them selected and holds some text
(`Field.Walking`), whatever keys it has met; every event keeps that or ends the walk (`Field.consistent_handle`). The
next press of Tab selects the next candidate (`Field.Walking.complete`), and as many presses as there are candidates
select each of them once (`existsUnique_turn`). `tab_walks_through_candidates` puts this together.
-/
import Mathlib.Data.Nat.ModEq
import PageShell.Page.Basic
import PageShell.Proofs.Manifest.RoundTrip
import PageShell.Proofs.Shell.CompletedLines

namespace PageShell

/-! ## What a completion offers -/

/-- candidates are on offer only if there are any, and none of them is empty -/
inductive Completion.Offers : Completion → Prop where
  | none : Offers .none
  | single (line : String) : Offers (.single line)
  | several (line : String) {candidates : List String} (hsome : candidates ≠ []) (hall : ∀ c ∈ candidates, c ≠ "") :
      Offers (.several line candidates)

theorem Completion.offers_ofCommand {registry : Registry} (h : ∀ n ∈ registry.names, n ≠ "") (word : String) :
    (ofCommand registry word).Offers := by
  unfold ofCommand
  split
  · exact .none
  · exact .single _
  · rename_i hsome _
    exact .several _ hsome fun n hn => h n (List.mem_of_mem_filter hn)

theorem Completion.ne_empty_of_eligible {files : FileSystem} (h : files.rootEntry.NamesAll ValidName) {cwd : String}
    {kind : OperandKind} {p : PartialPath} {l : Listed} (hl : l ∈ eligible files cwd kind p) : l.name ≠ "" := by
  obtain ⟨children, e, hdir, hmem, -⟩ := FileSystem.mem_listing.1 (List.mem_of_mem_filter hl)
  have hnames : Entry.AllNamesAll ValidName children := (Entry.namesAll_of_descend h hdir).2
  exact (Entry.allNamesAll_iff.1 hnames _ hmem).1.1

theorem Listed.display_ne_empty {l : Listed} (h : l.name ≠ "") : l.display ≠ "" := by
  unfold display
  split <;> simp [h]

theorem Completion.offers_ofOperand {files : FileSystem} (h : files.rootEntry.NamesAll ValidName)
    (cwd command : String) (kind : OperandKind) (operand : String) :
    (ofOperand files cwd command kind operand).Offers := by
  unfold ofOperand
  dsimp only
  split
  · exact .none
  · exact .single _
  · rename_i hsome _
    refine .several _ (by simpa using hsome) ?_
    intro c hc
    obtain ⟨l, hl, rfl⟩ := List.mem_map.1 hc
    exact Listed.display_ne_empty (ne_empty_of_eligible h hl)

theorem Shell.offers_complete {shell : Shell} (hnames : ∀ n ∈ shell.registry.names, n ≠ "")
    (hfiles : shell.files.rootEntry.NamesAll ValidName) (cwd line : String) : (shell.complete cwd line).Offers := by
  unfold complete
  dsimp only
  split
  · exact .none
  · split
    · exact Completion.offers_ofCommand hnames _
    · split
      · exact .none
      · exact Completion.offers_ofOperand hfiles ..

/-! ## Hosts -/

/-- in the states that `I` holds of, and it stays in those, a host completes lines by a shell, each in some directory -/
structure Host.Serves {σ : Type} (host : Host σ) (shell : Shell) (I : σ → Prop) : Prop where
  submit : ∀ line s, I s → I (host.submit line s)
  retrieve : ∀ direction s, I s → I (host.retrieve direction s).2
  complete : ∀ line s, I s → I (host.complete line s).2
  completion : ∀ line s, I s → ∃ cwd, (host.complete line s).1 = shell.complete cwd line

/-- the page completes lines by the shell of its terminal, in the working directory -/
theorem Page.host_serves (shell : Shell) : host.Serves shell fun s => s.1.shell = shell where
  submit line s h := by
    simp only [host, Terminal.enter]
    split
    · exact h
    · exact h
  retrieve _ _ h := h
  complete _ _ h := h
  completion line s h := ⟨s.1.session.cwd, by rw [← h]; rfl⟩

/-! ## One event -/

namespace TabCycle

theorem completion?_of_lt {t : TabCycle} (h : t.index < t.candidates.length) (hall : ∀ c ∈ t.candidates, c ≠ "") :
    ∃ line, t.completion? = some line ∧ line ≠ "" := by
  have hselected : t.candidates[t.index]? = some t.candidates[t.index] := List.getElem?_eq_getElem h
  refine ⟨_, by rw [completion?, hselected, Option.map_some], ?_⟩
  have hne : t.candidates[t.index] ≠ "" := hall _ (List.getElem_mem h)
  simp [hne]

theorem advance_of_lt {t : TabCycle} (h : t.index < t.candidates.length) :
    t.advance = { t with index := (t.index + 1) % t.candidates.length } := by
  have hsome : ¬t.candidates.isEmpty = true := by
    intro hnone
    rw [List.isEmpty_iff.1 hnone] at h
    cases h
  rw [advance, if_neg hsome]

end TabCycle

namespace Field

variable {σ : Type} {host : Host σ} {f : Field}

/-- a field shows candidates, one of which is selected, and holds some text -/
structure Walking (f : Field) : Prop where
  index_lt : f.cycle.index < f.cycle.candidates.length
  candidate_ne : ∀ c ∈ f.cycle.candidates, c ≠ ""
  value_ne : f.value ≠ ""

/-- what each event keeps: no candidates are on show, or the field walks through them -/
def Consistent (f : Field) : Prop :=
  f.cycle = .idle ∨ f.Walking

theorem consistent_blank : blank.Consistent :=
  Or.inl rfl

theorem Walking.candidates_ne_nil (h : f.Walking) : f.cycle.candidates ≠ [] :=
  List.ne_nil_of_length_pos (Nat.lt_of_le_of_lt (Nat.zero_le _) h.index_lt)

theorem Consistent.walking (h : f.Consistent) (hsome : f.cycle.candidates ≠ []) : f.Walking := by
  rcases h with hidle | hwalking
  · rw [hidle] at hsome
    exact absurd rfl hsome
  · exact hwalking

/-- on a walk, Tab selects the next candidate, and the field holds the line of that one -/
theorem Walking.complete (h : f.Walking) (host : Host σ) (s : σ) :
    ∃ line, f.complete host s = (⟨line, f.cycle.advance⟩, s) ∧ f.cycle.advance.completion? = some line ∧
      Walking ⟨line, f.cycle.advance⟩ := by
  have hpos : 0 < f.cycle.candidates.length := Nat.lt_of_le_of_lt (Nat.zero_le _) h.index_lt
  have hlt : f.cycle.advance.index < f.cycle.advance.candidates.length := by
    rw [TabCycle.advance_of_lt h.index_lt]
    exact Nat.mod_lt _ hpos
  have hall : ∀ c ∈ f.cycle.advance.candidates, c ≠ "" := by
    rw [TabCycle.advance_of_lt h.index_lt]
    exact h.candidate_ne
  obtain ⟨line, hline, hne⟩ := TabCycle.completion?_of_lt hlt hall
  refine ⟨line, ?_, hline, hlt, hall, hne⟩
  have hvalue : f.value.isEmpty = false := by simpa using h.value_ne
  have hactive : f.cycle.isActive = true := by simpa [TabCycle.isActive] using h.candidates_ne_nil
  simp [Field.complete, hvalue, hactive, hline]

/-- without candidates, Tab leaves it at that, or opens a walk at its base or at the first candidate -/
theorem complete_of_idle (hidle : f.cycle = .idle) {s : σ} (hoffers : (host.complete f.value s).1.Offers) :
    let f' := (f.complete host s).1
    f'.cycle = .idle ∨
      f'.Walking ∧ (f'.cycle.completion? = some f'.value ∨ f'.value = f'.cycle.base ∧ f'.cycle.index = 0) := by
  intro f'
  have hactive : f.cycle.isActive = false := by rw [hidle]; rfl
  by_cases hvalue : f.value.isEmpty = true
  · have hf : f' = f := by simp [f', Field.complete, hvalue]
    exact Or.inl (by rw [hf, hidle])
  · cases hcomplete : host.complete f.value s with
    | mk completion s' =>
      rw [hcomplete] at hoffers
      cases hoffers with
      | none =>
        have hf : f' = f := by simp [f', Field.complete, hvalue, hactive, hcomplete]
        exact Or.inl (by rw [hf, hidle])
      | single line =>
        have hf : f' = { f with value := line } := by simp [f', Field.complete, hvalue, hactive, hcomplete]
        exact Or.inl (by rw [hf]; exact hidle)
      | @several line candidates hsome hall =>
        have hlt : (TabCycle.start line candidates).index < candidates.length := List.length_pos_of_ne_nil hsome
        obtain ⟨first, hfirst, hne⟩ := TabCycle.completion?_of_lt hlt hall
        by_cases hlonger : f.value.utf8ByteSize < line.utf8ByteSize
        · have hf : f' = ⟨line, .start line candidates⟩ := by
            simp [f', Field.complete, hvalue, hactive, hcomplete, hlonger]
          -- the base goes into the field only if it is longer than what the field held
          have hline : line ≠ "" := by
            intro h
            rw [h] at hlonger
            exact absurd hlonger (Nat.not_lt_zero _)
          rw [hf]
          exact Or.inr ⟨⟨hlt, hall, hline⟩, Or.inr ⟨rfl, rfl⟩⟩
        · have hf : f' = ⟨first, .start line candidates⟩ := by
            simp [f', Field.complete, hvalue, hactive, hcomplete, hlonger, hfirst]
          rw [hf]
          exact Or.inr ⟨⟨hlt, hall, hne⟩, Or.inl hfirst⟩

/-- without candidates, Tab brings up those of the completion, all of them -/
theorem cycle_complete_of_several (hnone : f.cycle.candidates = []) (hvalue : f.value ≠ "") {s : σ} {base : String}
    {candidates : List String} (h : (host.complete f.value s).1 = .several base candidates) :
    (f.complete host s).1.cycle = .start base candidates := by
  have hactive : f.cycle.isActive = false := by simp [TabCycle.isActive, hnone]
  cases hcomplete : host.complete f.value s with
  | mk completion s' =>
    rw [hcomplete] at h
    have hcompletion : completion = .several base candidates := h
    subst hcompletion
    simp only [Field.complete, String.isEmpty_eq_false_iff.2 hvalue, hactive, hcomplete, Bool.false_eq_true, if_false]
    split <;> rfl

/-- Tab asks the host for a completion at most -/
theorem state_complete (host : Host σ) (f : Field) (s : σ) :
    (f.complete host s).2 = s ∨ (f.complete host s).2 = (host.complete f.value s).2 := by
  unfold Field.complete
  split
  · exact Or.inl rfl
  · split
    · exact Or.inl rfl
    · refine Or.inr ?_
      cases hcomplete : host.complete f.value s with
      | mk completion s' =>
        cases completion with
        | none => rfl
        | single line => rfl
        | several line candidates =>
          dsimp only
          split <;> rfl

/-- any key but Tab, and typing, end the walk -/
theorem cycle_handle {e : FieldEvent} (htab : e ≠ .key .tab) (hstray : e ≠ .stray) (s : σ) :
    (f.handle host e s).1.cycle = .idle := by
  cases e with
  | key k =>
    cases k with
    | tab => exact absurd rfl htab
    | enter | up | down | abandon | clear | other => rfl
  | input text => rfl
  | stray => exact absurd rfl hstray

theorem consistent_handle (h : f.Consistent) {s : σ} (hoffers : ∀ line, (host.complete line s).1.Offers)
    (e : FieldEvent) : (f.handle host e s).1.Consistent := by
  by_cases hstray : e = .stray
  · rw [hstray]
    exact h
  · by_cases htab : e = .key .tab
    · rw [htab]
      rcases h with hidle | hwalking
      · exact (complete_of_idle hidle (hoffers f.value)).imp_right And.left
      · obtain ⟨line, hline, -, hnext⟩ := hwalking.complete host s
        have hf : (f.handle host (.key .tab) s).1 = ⟨line, f.cycle.advance⟩ := congrArg Prod.fst hline
        exact Or.inr (by rw [hf]; exact hnext)
    · exact Or.inl (cycle_handle htab hstray s)

/-! ## Events one after another -/

theorem handleAll_append (host : Host σ) (a b : List FieldEvent) (f : Field) (s : σ) :
    handleAll host (a ++ b) f s = handleAll host b (handleAll host a f s).1 (handleAll host a f s).2 := by
  rw [handleAll, List.foldl_append]
  rfl

/-- inputs that belong to no field can be left out -/
theorem handleAll_filter (host : Host σ) (events : List FieldEvent) (f : Field) (s : σ) :
    handleAll host (events.filter (· ≠ .stray)) f s = handleAll host events f s := by
  induction events generalizing f s with
  | nil => rfl
  | cons e events ih =>
    by_cases h : e = .stray
    · rw [List.filter_cons_of_neg (by simpa using h), ih, h]
      rfl
    · rw [List.filter_cons_of_pos (by simpa using h)]
      exact ih ..

/-- Tab pressed some times on a walk: the selection has moved on by as many candidates -/
theorem Walking.complete_repeatedly (h : f.Walking) (host : Host σ) (s : σ) (k : Nat) :
    let f' := (handleAll host (List.replicate k (.key .tab)) f s).1
    f'.Walking ∧
      f'.cycle = { f.cycle with index := (f.cycle.index + k) % f.cycle.candidates.length } ∧
      (0 < k → f'.cycle.completion? = some f'.value) := by
  induction k with
  | zero => exact ⟨h, by simp [handleAll, Nat.mod_eq_of_lt h.index_lt], fun hk => absurd hk (Nat.lt_irrefl 0)⟩
  | succ k ih =>
    obtain ⟨hwalking, hcycle, -⟩ := ih
    rw [List.replicate_succ', handleAll_append]
    generalize handleAll host (List.replicate k (.key .tab)) f s = r at hwalking hcycle
    obtain ⟨line, hline, hshown, hnext⟩ := hwalking.complete host r.2
    have hlast : handleAll host [.key .tab] r.1 r.2 = (⟨line, r.1.cycle.advance⟩, r.2) := hline
    rw [hlast]
    refine ⟨hnext, ?_, fun _ => hshown⟩
    dsimp only
    rw [TabCycle.advance_of_lt hwalking.index_lt, hcycle]
    simp [Nat.add_assoc]

end Field

namespace Host.Serves

variable {σ : Type} {host : Host σ} {shell : Shell} {I : σ → Prop}

theorem handle (h : host.Serves shell I) {s : σ} (hs : I s) (e : FieldEvent) (f : Field) : I (f.handle host e s).2 := by
  cases e with
  | key k =>
    cases k with
    | tab =>
      have htab : (f.handle host (.key .tab) s).2 = (f.complete host s).2 := rfl
      rw [htab]
      rcases Field.state_complete host f s with hsame | hasked
      · rw [hsame]
        exact hs
      · rw [hasked]
        exact h.complete f.value s hs
    | enter => exact h.submit f.value s hs
    | up => exact h.retrieve (-1) s hs
    | down => exact h.retrieve 1 s hs
    | clear => exact h.submit "clear" s hs
    | abandon | other => exact hs
  | input text => exact hs
  | stray => exact hs

theorem consistent_handleAll (h : host.Serves shell I)
    (hoffers : ∀ cwd line, (shell.complete cwd line).Offers) {s : σ} (hs : I s) {f : Field} (hf : f.Consistent)
    (events : List FieldEvent) :
    (Field.handleAll host events f s).1.Consistent ∧ I (Field.handleAll host events f s).2 := by
  induction events generalizing f s with
  | nil => exact ⟨hf, hs⟩
  | cons e events ih =>
    have hnow : ∀ line, (host.complete line s).1.Offers := by
      intro line
      obtain ⟨cwd, hcwd⟩ := h.completion line s hs
      rw [hcwd]
      exact hoffers cwd line
    exact ih (h.handle hs e f) (Field.consistent_handle hf hnow e)

/-- candidates on show have come from Tab: the field holds the line of the selected one, or Tab has just found them -/
theorem shown_after (h : host.Serves shell I) (hoffers : ∀ cwd line, (shell.complete cwd line).Offers) {s : σ}
    (hs : I s) {before : List FieldEvent} {e : FieldEvent} (hstray : e ≠ .stray) :
    let f := (Field.handleAll host (before ++ [e]) .blank s).1
    f.cycle.candidates ≠ [] →
      e = .key .tab ∧ (f.cycle.completion? = some f.value ∨ f.value = f.cycle.base ∧ f.cycle.index = 0 ∧
        (Field.handleAll host before .blank s).1.cycle.candidates = []) := by
  obtain ⟨hconsistent, hI⟩ := h.consistent_handleAll hoffers hs Field.consistent_blank before
  rw [Field.handleAll_append]
  generalize Field.handleAll host before .blank s = r at hconsistent hI
  intro f hsome
  by_cases htab : e = .key .tab
  · refine ⟨htab, ?_⟩
    have hf : f = (r.1.complete host r.2).1 := by
      simp only [f, htab]
      rfl
    rcases hconsistent with hidle | hwalking
    · obtain ⟨cwd, hcwd⟩ := h.completion r.1.value r.2 hI
      rcases Field.complete_of_idle hidle (hcwd ▸ hoffers cwd r.1.value) with hnone | ⟨-, hvalue⟩
      · rw [hf, hnone] at hsome
        exact absurd rfl hsome
      · rw [hf]
        refine hvalue.imp_right fun hbase => ⟨hbase.1, hbase.2, ?_⟩
        rw [hidle]
        rfl
    · obtain ⟨line, hline, hshown, -⟩ := hwalking.complete host r.2
      rw [hf, hline]
      exact Or.inl hshown
  · have hidle : f.cycle = .idle := Field.cycle_handle htab hstray r.2
    rw [hidle] at hsome
    exact absurd rfl hsome

end Host.Serves

/-! ## Around the candidates -/

/-- of `n` steps around a circle of `n` places, exactly one leads to a given place -/
theorem existsUnique_turn {n i j : Nat} (hi : i < n) (hj : j < n) : ∃! k, k < n ∧ (j + (k + 1)) % n = i := by
  have hreach : ∃ k, k < n ∧ (j + (k + 1)) % n = i := by
    by_cases hle : j + 1 ≤ i
    · refine ⟨i - (j + 1), by omega, ?_⟩
      have hsum : j + (i - (j + 1) + 1) = i := by omega
      rw [hsum, Nat.mod_eq_of_lt hi]
    · refine ⟨i + n - (j + 1), by omega, ?_⟩
      have hsum : j + (i + n - (j + 1) + 1) = i + n := by omega
      rw [hsum, Nat.add_mod_right, Nat.mod_eq_of_lt hi]
  obtain ⟨k, hk, hplace⟩ := hreach
  refine ⟨k, ⟨hk, hplace⟩, ?_⟩
  intro k' ⟨hk', hplace'⟩
  have hsame : j + (k' + 1) ≡ j + (k + 1) [MOD n] := hplace'.trans hplace.symm
  have hturn : k' ≡ k [MOD n] := Nat.ModEq.add_right_cancel' 1 (Nat.ModEq.add_left_cancel' j hsame)
  exact Nat.ModEq.eq_of_lt_of_lt hturn hk' hk

/--
**Tab walks through the candidates.** A field is in a page that completes lines by a shell with the standard commands and
loaded files, in any directory, and that may do with submitted and retrieved lines what it likes (`Page.host_serves`).
Whatever has happened to the field, inputs that belong to no field left out:

If candidates are on show, the last event was Tab, one of the candidates is selected, and the field holds its line, or the
base, with the first candidate selected, right after the press that brought the candidates up. Any other key and typing
take them away. Each further press selects the candidate behind, around the list; as many as there are candidates select
each of them once, and the last press selects the same one as before. Where no candidates are on show, Tab brings up all
of those that the page has for the text in the field, if it has several.
-/
theorem tab_walks_through_candidates {σ : Type} {host : Host σ} {shell : Shell} {I : σ → Prop}
    (hhost : host.Serves shell I) (hregistry : shell.registry = .standard) {text : String}
    (hfiles : Manifest.load text = .ok shell.files) {s : σ} (hs : I s) (events : List FieldEvent) :
    let after := fun events => (Field.handleAll host events .blank s).1
    let seen := events.filter (· ≠ .stray)
    let f := after events
    (f.cycle.candidates ≠ [] →
      seen.getLast? = some (.key .tab) ∧ f.cycle.index < f.cycle.candidates.length ∧
        (f.cycle.completion? = some f.value ∨
          f.value = f.cycle.base ∧ f.cycle.index = 0 ∧ (after seen.dropLast).cycle.candidates = [])) ∧
      (∀ e, e ≠ .key .tab → e ≠ .stray → (after (events ++ [e])).cycle.candidates = []) ∧
      (f.cycle.candidates ≠ [] →
        let n := f.cycle.candidates.length
        let walked := fun k => after (events ++ List.replicate k (.key .tab))
        (∀ k, (walked k).cycle = { f.cycle with index := (f.cycle.index + k) % n }) ∧
          (∀ k, 0 < k → (walked k).cycle.completion? = some (walked k).value) ∧
          (∀ i < n, ∃! k, k < n ∧ (walked (k + 1)).cycle.index = i) ∧
          (walked n).cycle.index = f.cycle.index) ∧
      ∀ base candidates, f.cycle.candidates = [] → f.value ≠ "" →
        (host.complete f.value (Field.handleAll host events .blank s).2).1 = .several base candidates →
        (after (events ++ [.key .tab])).cycle = ⟨base, candidates, 0⟩ := by
  intro after seen f
  have hnames : ∀ n ∈ shell.registry.names, n ≠ "" := by
    rw [hregistry]
    decide
  have hoffers : ∀ cwd line, (shell.complete cwd line).Offers :=
    Shell.offers_complete hnames (Manifest.namesAll_of_load hfiles)
  have hconsistent : f.Consistent := (hhost.consistent_handleAll hoffers hs Field.consistent_blank events).1
  have hafter : ∀ more, after (events ++ more) =
      (Field.handleAll host more f (Field.handleAll host events .blank s).2).1 := by
    intro more
    exact congrArg Prod.fst (Field.handleAll_append host events more .blank s)
  refine ⟨?_, ?_, ?_, ?_⟩
  · intro hsome
    have hwalking : f.Walking := hconsistent.walking hsome
    have hf : f = after seen := congrArg Prod.fst (Field.handleAll_filter host events .blank s).symm
    rcases List.eq_nil_or_concat' seen with hnil | ⟨before, e, hseen⟩
    · rw [hf, hnil] at hsome
      exact absurd rfl hsome
    · have hstray : e ≠ .stray := by
        have hmem : e ∈ seen := by simp [hseen]
        simpa using (List.mem_filter.1 hmem).2
      rw [hf, hseen] at hsome
      obtain ⟨rfl, hvalue⟩ := hhost.shown_after hoffers hs hstray hsome
      refine ⟨by simp [hseen], hwalking.index_lt, ?_⟩
      rw [hf, hseen, List.dropLast_concat]
      exact hvalue
  · intro e htab hstray
    have hidle : (after (events ++ [e])).cycle = .idle := by
      rw [hafter]
      exact Field.cycle_handle htab hstray _
    rw [hidle]
    rfl
  · intro hsome n walked
    have hwalking : f.Walking := hconsistent.walking hsome
    have hwalked : ∀ k, (walked k).Walking ∧ (walked k).cycle = { f.cycle with index := (f.cycle.index + k) % n } ∧
        (0 < k → (walked k).cycle.completion? = some (walked k).value) := by
      intro k
      have hk : walked k = (Field.handleAll host (List.replicate k (.key .tab)) f _).1 := hafter _
      rw [hk]
      exact hwalking.complete_repeatedly host _ k
    have hindex : ∀ k, (walked k).cycle.index = (f.cycle.index + k) % n := by
      intro k
      rw [(hwalked k).2.1]
    refine ⟨fun k => (hwalked k).2.1, fun k => (hwalked k).2.2, ?_, ?_⟩
    · intro i hi
      simp only [hindex]
      exact existsUnique_turn hi hwalking.index_lt
    · rw [hindex, Nat.add_mod_right, Nat.mod_eq_of_lt hwalking.index_lt]
  · intro base candidates hnone hvalue hseveral
    rw [hafter]
    exact Field.cycle_complete_of_several hnone hvalue hseveral

/-- two directories begin alike: Tab first writes how, and then walks from the one to the other and back -/
theorem tab_walks_through_candidates_alike :
    let text := "\x7b\"downloads\":\x7b\x7d,\"docs\":\x7b\x7d,\"drafts\":\"\"\x7d"
    let files := FileSystem.ofChildren [("docs", .dir []), ("downloads", .dir []), ("drafts", .text "")]
    let t : Terminal := ⟨⟨files, .standard⟩, .start "/" [], ⟨8, []⟩, .empty⟩
    let after := fun events => (Field.handleAll Page.host events .blank (t, none)).1
    let events := [.input "cd d", .key .tab, .stray]
    Manifest.load text = .ok files ∧
      after events = ⟨"cd do", "cd do", ["docs/", "downloads/"], 0⟩ ∧
      (after [.input "cd d"]).cycle.candidates = [] ∧
      after (events ++ [.key .tab]) = ⟨"cd downloads/", "cd do", ["docs/", "downloads/"], 1⟩ ∧
      (∃! k, k < 2 ∧ (after (events ++ List.replicate (k + 1) (.key .tab))).cycle.index = 0) ∧
      (after (events ++ [.key .enter])).cycle.candidates = [] := by
  intro text files t after events
  have hload : Manifest.load text = .ok t.shell.files := by decide +kernel
  have hopened : after events = ⟨"cd do", "cd do", ["docs/", "downloads/"], 0⟩ := by decide +kernel
  have hsecond : after (events ++ [.key .tab]) = ⟨"cd downloads/", "cd do", ["docs/", "downloads/"], 1⟩ := by
    decide +kernel
  have hs : (t, (none : Option String)).1.shell = t.shell := rfl
  obtain ⟨hshown, hended, hwalked, -⟩ := tab_walks_through_candidates (Page.host_serves t.shell) rfl hload hs events
  have hsome : (after events).cycle.candidates ≠ [] := by
    rw [hopened]
    simp
  have hbase : (after [.input "cd d"]).cycle.candidates = [] := by
    have hne : (after events).cycle.completion? ≠ some (after events).value := by
      rw [hopened]
      decide
    obtain ⟨-, -, hline | ⟨-, -, hbefore⟩⟩ := hshown hsome
    · exact absurd hline hne
    · exact hbefore
  have hall : ∀ i < 2, ∃! k, k < 2 ∧ (after (events ++ List.replicate (k + 1) (.key .tab))).cycle.index = i := by
    have hcount : (after events).cycle.candidates.length = 2 := by
      rw [hopened]
      rfl
    rw [← hcount]
    exact (hwalked hsome).2.2.1
  exact ⟨hload, hopened, hbase, hsecond, hall 0 (by decide), hended (.key .enter) (by decide) (by decide)⟩

end PageShell
