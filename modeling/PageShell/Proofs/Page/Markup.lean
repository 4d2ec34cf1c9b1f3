/-
Only the markup of the site becomes part of a page.

Whatever is in the files, the environment, the lines that are entered and the replies of the network, a line of markup
that is written is one of the site's fragments, and an address that is opened is one of the site's
(`Shell.all_execute`). Both ways to keep what is written keep it so, as does a page (`Page.Safe`); and a page shows as
markup only what its transcript holds as markup (`View.mem_raws_page`). All else is text there.
-/
import PageShell.Proofs.Page.Schedule
import PageShell.Proofs.Shell.Endings

namespace PageShell

/-! ## What lines write -/

/-- a line is no markup but the site's -/
def Line.Bundled : Line → Prop
  | .markup html => html ∈ Site.fragments
  | .text _ | .error _ | .image _ | .command _ _ => True

/-- a write adds no markup but the site's -/
def Write.Bundled : Write → Prop
  | .append l => l.Bundled
  | .clear => True

/-- an outcome opens no address but the site's -/
def Outcome.Bundled (o : Outcome) : Prop :=
  ∀ url, o.page = some url → url ∈ Site.addresses

theorem Outcome.bundled_of_page_eq_none {o : Outcome} (h : o.page = none) : o.Bundled := by
  intro url hurl
  rw [h] at hurl
  cases hurl

theorem Write.Proper.bundled {w : Write} (h : w.Proper) : w.Bundled := by
  match w with
  | .clear | .append (.text _) | .append (.image _) => trivial
  | .append (.markup _) => exact h
  | .append (.error _) | .append (.command _ _) => exact h.elim

theorem all_conclude (session : Session) {result : Except ShellError Effect} (h : ProperResult result) :
    (conclude session result).All Write.Bundled Outcome.Bundled := by
  cases result with
  | ok effect =>
    obtain ⟨hwrites, hpage⟩ := h effect rfl
    exact Process.all_writeAll (fun w hw => (hwrites w hw).bundled) hpage
  | error e => exact ⟨trivial, Outcome.bundled_of_page_eq_none rfl⟩

/-- whatever a line comes to, it writes and opens only what is the site's -/
theorem Shell.all_execute (shell : Shell) (session : Session) (line : String) :
    (shell.execute session line).All Write.Bundled Outcome.Bundled := by
  cases hb : shell.commandOf? session line with
  | none =>
    rcases shell.execute_of_commandOf?_eq_none hb with h | ⟨name, h⟩
    · rw [h]
      exact Outcome.bundled_of_page_eq_none rfl
    · rw [h]
      exact all_conclude session (properResult_error _)
  | some b =>
    rw [shell.execute_of_commandOf? hb]
    exact (b.all_run ⟨shell, session⟩ _).andThen (fun _ hw => hw.bundled) fun _ hr => all_conclude session hr

theorem Shell.runs_bundled (shell : Shell) (session : Session) (lines : List (String × Network)) :
    ∀ r ∈ shell.runs session lines, (∀ w ∈ r.writes, w.Bundled) ∧ r.result.Bundled := by
  induction lines generalizing session with
  | nil => simp [runs]
  | cons l lines ih =>
    exact List.forall_mem_cons.2 ⟨(shell.all_execute session l.1).run l.2, ih _⟩

/-! ## What is kept of it -/

/-- a line in a ring was there before, or has been written -/
theorem Ring.mem_writeAll {r : Ring Line} {writes : List Write} {l : Line} (h : l ∈ (r.writeAll writes).items) :
    l ∈ r.items ∨ .append l ∈ writes := by
  induction writes generalizing r with
  | nil => exact Or.inl h
  | cons w writes ih =>
    rcases ih (r := r.write w) h with hl | hl
    · cases w with
      | clear => cases hl
      | append line =>
        rcases Ring.mem_push hl with hold | rfl
        · exact Or.inl hold
        · exact Or.inr List.mem_cons_self
    · exact Or.inr (List.mem_cons_of_mem w hl)

/-- a line without a bound was there before, or shows one that has been written -/
theorem Plain.mem_writeAll {lines : List Line} {writes : List Write} {l : Line}
    (h : l ∈ Plain.writeAll lines writes) : l ∈ lines ∨ ∃ l', .append l' ∈ writes ∧ l = plain l' := by
  induction writes generalizing lines with
  | nil => exact Or.inl h
  | cons w writes ih =>
    have hafter : l ∈ Plain.writeAll (Plain.write lines w) writes := h
    rcases ih hafter with hl | ⟨l', hl', rfl⟩
    · cases w with
      | clear => cases hl
      | append line =>
        rcases List.mem_append.1 hl with hold | hnew
        · exact Or.inl hold
        · exact Or.inr ⟨line, List.mem_cons_self, List.mem_singleton.1 hnew⟩
    · exact Or.inr ⟨l', List.mem_cons_of_mem w hl', rfl⟩

theorem Line.Bundled.plain {l : Line} (h : l.Bundled) : (Plain.plain l).Bundled := by
  cases l with
  | markup html => exact h
  | _ => trivial

/-! ## Markup in a tree -/

namespace Html

mutual

/-- the markup that is written as it is -/
def raws : Html → List String
  | .raw markup => [markup]
  | .element _ _ children => rawsAll children
  | .text _ | .void _ _ => []

/-- the markup in pieces of a page that is written as it is -/
def rawsAll : List Html → List String
  | [] => []
  | h :: rest => raws h ++ rawsAll rest

end

theorem rawsAll_eq_flatMap (pieces : List Html) : rawsAll pieces = pieces.flatMap raws := by
  induction pieces with
  | nil => rfl
  | cons h rest ih => rw [rawsAll, ih, List.flatMap_cons]

theorem raws_div (name : String) (children : List Html) : (div name children).raws = children.flatMap raws :=
  rawsAll_eq_flatMap children

theorem raws_span (name text : String) : (span name text).raws = [] := rfl

end Html

namespace View

theorem mem_raws_line {l : Line} {markup : String} : markup ∈ (View.line l).raws ↔ l = .markup markup := by
  cases l <;> simp [View.line, Html.raws_div, Html.raws_span, Html.raws, eq_comm]

/-- prompt, field and candidates are text -/
theorem raws_field (prompt : String) (cycle : TabCycle) : (View.field prompt cycle).raws = [] := by
  have hsuggestions : (View.suggestions cycle).flatMap Html.raws = [] := by
    unfold View.suggestions
    split
    · have hspans : ∀ h ∈ cycle.candidates.mapIdx (fun i c =>
          Html.span (if i = cycle.index then "suggestion suggestionActive" else "suggestion") c), h.raws = [] := by
        intro h hh
        obtain ⟨i, hi, rfl⟩ := List.mem_mapIdx.1 hh
        exact Html.raws_span _ _
      simpa [Html.raws_div] using hspans
    · rfl
  rw [View.field, Html.raws_div, List.flatMap_cons, hsuggestions]
  rfl

/-- what a page shows as markup stands as markup in its transcript -/
theorem mem_raws_page {lines : List Line} {prompt : Option String} {markup : String} :
    markup ∈ (View.page lines prompt).raws ↔ .markup markup ∈ lines := by
  have hinput : (prompt.toList.map fun p => Html.div "inputArea" [View.field p .idle]).flatMap Html.raws = [] := by
    cases prompt with
    | none => rfl
    | some p => simp [Html.raws_div, raws_field]
  rw [View.page, Html.raws_div, List.flatMap_cons, hinput, List.append_nil, Html.raws_div, List.flatMap_map,
    List.mem_flatMap]
  simp only [mem_raws_line, exists_eq_right]

end View

/-! ## What happens to a page -/

namespace Browser

theorem deeds_probe (b : Browser) (address : String) :
    (b.probe address).1.deeds = b.deeds ++ [.fetch ("https://" ++ address), .timer timeout] := by
  simp only [probe, fetch, startTimer, note]
  split
  · simp
  · rename_i after _
    by_cases hdue : b.now + after ≤ b.now + timeout.toFloat
    · simp [hdue]
    · simp [hdue]

theorem mem_deeds_probe {b : Browser} {address url : String} (h : .navigate url ∈ (b.probe address).1.deeds) :
    .navigate url ∈ b.deeds := by
  simpa [deeds_probe] using h

theorem mem_deeds_sleep {b : Browser} {ms : Nat} {url : String} (h : .navigate url ∈ (b.sleep ms).1.deeds) :
    .navigate url ∈ b.deeds := by
  simpa [sleep, startTimer, note] using h

theorem mem_deeds_focus {b : Browser} {hasField : Bool} {url : String}
    (h : .navigate url ∈ (b.focus hasField).1.deeds) : .navigate url ∈ b.deeds := by
  unfold focus at h
  split at h
  · simpa [note] using h
  · exact h

theorem mem_deeds_navigate {b : Browser} {opened url : String} (h : .navigate url ∈ (b.navigate opened).deeds) :
    .navigate url ∈ b.deeds ∨ url = opened := by
  unfold navigate at h
  split at h
  · simpa [note] using h
  · exact Or.inl h

end Browser

/-- however a job goes on, it writes and opens only what is the site's -/
def Wait.Bundled : Wait → Prop
  | .reply _ next => ∀ r, (next r).All Write.Bundled Outcome.Bundled
  | .pause next => next.All Write.Bundled Outcome.Bundled

namespace Page

/-- since the page was as at `first`, no markup but the site's has come into it, and no address but the site's was opened -/
structure Safe (first p : Page) : Prop where
  transcript : ∀ l ∈ p.terminal.transcript.items, l ∈ first.terminal.transcript.items ∨ l.Bundled
  deeds : ∀ url, .navigate url ∈ p.browser.deeds → .navigate url ∈ first.browser.deeds ∨ url ∈ Site.addresses
  jobs : ∀ job ∈ p.jobs, job.wait.Bundled

variable {first p : Page}

/-- a write that adds no markup but the site's -/
theorem Safe.write (h : Safe first p) {w : Write} (hw : w.Bundled) :
    Safe first { p with terminal := p.terminal.write w } where
  deeds := h.deeds
  jobs := h.jobs
  transcript := by
    intro l hl
    have hwritten : l ∈ (p.terminal.transcript.writeAll [w]).items := hl
    rcases Ring.mem_writeAll hwritten with hold | hnew
    · exact h.transcript l hold
    · rw [← List.mem_singleton.1 hnew] at hw
      exact Or.inr hw

/-- another state of the browser, in which no further address was opened -/
theorem Safe.withBrowser (h : Safe first p) {browser : Browser}
    (hb : ∀ url, .navigate url ∈ browser.deeds → .navigate url ∈ p.browser.deeds) : Safe first { p with browser } where
  transcript := h.transcript
  jobs := h.jobs
  deeds url hurl := h.deeds url (hb url hurl)

theorem Safe.drive (h : Safe first p) {q : Process Outcome} (hq : q.All Write.Bundled Outcome.Bundled) :
    Safe first (drive .still q p) := by
  induction q generalizing p with
  | done o =>
    refine ⟨h.transcript, ?_, h.jobs⟩
    intro url hurl
    simp only [Page.drive, finish] at hurl
    split at hurl
    · rename_i opened hopened
      rcases Browser.mem_deeds_navigate hurl with hold | rfl
      · exact h.deeds url hold
      · exact Or.inr (hq _ hopened)
    · exact h.deeds url hurl
  | write w next ih => exact ih (h.write hq.1) hq.2
  | probe address next ih =>
    have hprobe : Safe first { p with browser := (p.browser.probe address).1 } :=
      h.withBrowser fun _ => Browser.mem_deeds_probe
    refine ⟨hprobe.transcript, hprobe.deeds, ?_⟩
    exact List.forall_mem_append.2 ⟨h.jobs, List.forall_mem_singleton.2 hq⟩
  | sleep ms next ih =>
    have hsleep : Safe first { p with browser := (p.browser.sleep ms).1 } :=
      h.withBrowser fun _ => Browser.mem_deeds_sleep
    refine ⟨hsleep.transcript, hsleep.deeds, ?_⟩
    exact List.forall_mem_append.2 ⟨h.jobs, List.forall_mem_singleton.2 hq⟩

/-- the page without one of its jobs -/
theorem Safe.wakeJob (h : Safe first p) (index : Nat) (wake : Wake) : Safe first (p.wakeJob index wake) where
  transcript := h.transcript
  deeds := h.deeds
  jobs job hjob := h.jobs job (List.mem_of_mem_eraseIdx hjob)

theorem Safe.fieldEvent (h : Safe first p) (e : FieldEvent) : Safe first (p.fieldEvent e) := by
  unfold Page.fieldEvent
  split
  · exact h
  · rcases handle_host p.field e p.terminal with ⟨hnone, halike⟩ | ⟨line, hsome, henter⟩
    · simp only [hnone]
      exact ⟨by rw [halike.transcript]; exact h.transcript, h.deeds, h.jobs⟩
    · simp only [hsome, henter, launch]
      refine Safe.drive ?_ ((p.terminal.enter line).shell.all_execute _ line)
      refine ⟨?_, h.deeds, h.jobs⟩
      unfold Terminal.enter
      split
      · exact h.transcript
      · exact (h.write (w := .append (.command p.terminal.prompt line)) trivial).transcript

theorem Safe.happen (h : Safe first p) (event : Happening) : Safe first (p.happen event) := by
  cases event with
  | field e => exact h.fieldEvent e
  | click => exact h.withBrowser fun _ => Browser.mem_deeds_focus
  | clock now => exact h.withBrowser fun _ hurl => hurl
  | reply index r =>
    simp only [Page.happen]
    split
    · rename_i wake expected next hjob
      have hwait := h.jobs _ (List.mem_of_getElem? hjob)
      exact (h.wakeJob index wake).drive (hwait r)
    · exact h
  | timer index =>
    simp only [Page.happen]
    split
    · rename_i wake next hjob
      have hwait := h.jobs _ (List.mem_of_getElem? hjob)
      exact (h.wakeJob index wake).drive hwait
    · exact h

theorem Safe.happenAll (h : Safe first p) (hs : List Happening) : Safe first (p.happenAll hs) := by
  induction hs generalizing p with
  | nil => exact h
  | cons event hs ih => exact ih (h.happen event)

theorem safe_ofTerminal (t : Terminal) (browser : Browser) : Safe (ofTerminal t browser) (ofTerminal t browser) where
  transcript _ hl := Or.inl hl
  deeds _ hurl := Or.inl hurl
  jobs := by simp [ofTerminal]

end Page

/-! ## All that is shown -/

/--
**Only the markup of the site is live.** Whatever the files, the registry, the environment, the lines and the network are:
a line of markup that is written is one of the site's fragments, and a page that is opened is one of the site's; so it is
in what a ring keeps and in what is kept without a bound. Whatever happens to a page, no other markup comes into its
transcript, no other address is opened, and the page shows as markup only what stands as markup in the transcript, the
prompt and the candidates never.
-/
theorem markup_is_bundled (t : Terminal) (browser : Browser) (lines : List (String × Network)) :
    (∀ r ∈ t.shell.runs t.session lines, (∀ w ∈ r.writes, w.Bundled) ∧ r.result.Bundled) ∧
      (∀ l ∈ (t.transcript.writeAll ((t.shell.runs t.session lines).flatMap (·.writes))).items,
        l ∈ t.transcript.items ∨ l.Bundled) ∧
      (∀ l ∈ Plain.writeAll [] ((t.shell.runs t.session lines).flatMap (·.writes)), l.Bundled) ∧
      (∀ hs, let p := (Page.ofTerminal t browser).happenAll hs
        (∀ l ∈ p.terminal.transcript.items, l ∈ t.transcript.items ∨ l.Bundled) ∧
          (∀ url, .navigate url ∈ p.browser.deeds → .navigate url ∈ browser.deeds ∨ url ∈ Site.addresses) ∧
          (∀ markup ∈ p.html.raws, .markup markup ∈ t.transcript.items ∨ markup ∈ Site.fragments) ∧
          (View.field p.terminal.prompt p.field.cycle).raws = []) ∧
      ∀ events : List PageEvent, ∃ hs,
        (Page.ofTerminal t browser).run events = (Page.ofTerminal t browser).happenAll hs := by
  have hruns := t.shell.runs_bundled t.session lines
  have hwrites : ∀ w ∈ (t.shell.runs t.session lines).flatMap (·.writes), w.Bundled := by
    intro w hw
    obtain ⟨r, hr, hwr⟩ := List.mem_flatMap.1 hw
    exact (hruns r hr).1 w hwr
  refine ⟨hruns, ?_, ?_, fun hs => ?_, Page.reached_run t browser⟩
  · intro l hl
    rcases Ring.mem_writeAll hl with hold | hnew
    · exact Or.inl hold
    · exact Or.inr (hwrites _ hnew)
  · intro l hl
    rcases Plain.mem_writeAll hl with hold | ⟨l', hl', rfl⟩
    · cases hold
    · exact (hwrites _ hl').plain
  · intro p
    have hsafe : Page.Safe (Page.ofTerminal t browser) p := (Page.safe_ofTerminal t browser).happenAll hs
    exact ⟨hsafe.transcript, hsafe.deeds, fun markup hmarkup => hsafe.transcript _ (View.mem_raws_page.1 hmarkup),
      View.raws_field _ _⟩

end PageShell
