/-
Entering a line, and recalling the newest one after it.

A page makes calls on its history only when a key of its field has it do so (`Page.history_happen`), so its history is one
after some calls (`Page.Reached.stands`). A line that is not blank is the newest one when it has been entered, and counting
begins anew. A blank line makes no call at all: it leaves the count where it was, and the next key up goes on from there.
-/
import PageShell.Proofs.Page.Recalling
import PageShell.Proofs.Page.Schedule

namespace PageShell

/-! ## Calls on the history -/

namespace History

/-- the calls that entering a line makes -/
def entering (line : String) : List Call :=
  if Text.isBlankText line then [] else [.add line]

theorem enter_of_blank {line : String} (hblank : Text.isBlankText line = true) (capacity : Nat) (h : History) :
    (entering line).foldl (call capacity) h = h := by
  rw [entering, if_pos hblank, List.foldl_nil]

theorem enter_of_not_blank {line : String} (hline : Text.isBlankText line = false) (capacity : Nat) (h : History) :
    (entering line).foldl (call capacity) h = h.add capacity line := by
  rw [entering, hline]
  rfl

/-- a line that is not blank is the newest one -/
theorem getLast?_keep {capacity : Nat} (hcapacity : 0 < capacity) (lines : List String) {line : String}
    (hline : Text.isBlankText line = false) : (keep capacity lines line).getLast? = some line := by
  unfold keep
  rw [hline, Bool.false_or]
  split_ifs with hsame
  · exact beq_iff_eq.1 hsame
  · dsimp only
    split_ifs with hfull
    · have hne : lines ≠ [] := by
        rintro rfl
        exact absurd hfull (Nat.not_lt.2 hcapacity)
      rw [List.tail_append_of_ne_nil hne]
      exact List.getLast?_concat
    · exact List.getLast?_concat

end History

/-- the calls that an event of a field makes on the history -/
def Field.calls (f : Field) : FieldEvent → List History.Call
  | .key .enter => History.entering f.value
  | .key .clear => History.entering "clear"
  | .key .up => [.retrieve (-1)]
  | .key .down => [.retrieve 1]
  | .key .tab | .key .abandon | .key .other | .input _ | .stray => []

/-- neither enters a line nor recalls one -/
def Happening.LeavesHistory (h : Happening) : Prop :=
  ∀ k ∈ [Key.enter, .clear, .up, .down], h ≠ .field (.key k)

namespace Page

/-- the calls that a happening makes on the history; without a field there are none -/
def calls (p : Page) : Happening → List History.Call
  | .field e => if p.isRunning then [] else p.field.calls e
  | .click | .reply _ _ | .timer _ | .clock _ => []

theorem calls_of_leavesHistory {h : Happening} (hleaves : h.LeavesHistory) (p : Page) : p.calls h = [] := by
  cases h with
  | field e =>
    have hcalls : p.field.calls e = [] := by
      cases e with
      | key k =>
        cases k with
        | enter | clear | up | down => exact absurd rfl (hleaves _ (by simp))
        | tab | abandon | other => rfl
      | input text => rfl
      | stray => rfl
    rw [calls, hcalls, ite_self]
  | click | reply | timer | clock => rfl

theorem history_enter (t : Terminal) (line : String) :
    (t.enter line).history = (History.entering line).foldl (History.call Site.historyCapacity) t.history := by
  unfold Terminal.enter History.entering
  split_ifs <;> rfl

theorem history_handle (f : Field) (e : FieldEvent) (t : Terminal) :
    (f.handle host e (t, none)).2.1.history = (f.calls e).foldl (History.call Site.historyCapacity) t.history := by
  cases e with
  | key k =>
    cases k with
    | tab => rw [Field.handle, Field.press, complete_host, Field.calls, List.foldl_nil]
    | enter => exact history_enter t f.value
    | clear => exact history_enter t "clear"
    | up | down | abandon | other => rfl
  | input text => rfl
  | stray => rfl

/-- a running line leaves the history alone -/
theorem history_drive (horizon : Horizon) (q : Process Outcome) (p : Page) :
    (drive horizon q p).terminal.history = p.terminal.history := by
  induction q generalizing p with
  | done o => rfl
  | write w next ih => exact ih { p with terminal := p.terminal.write w }
  | probe address next ih =>
    simp only [drive]
    split_ifs
    · rw [ih]
    · rfl
  | sleep ms next ih =>
    simp only [drive]
    split_ifs
    · rw [ih]
    · rfl

/-- one happening makes its calls on the history -/
theorem history_happen (p : Page) (h : Happening) :
    (p.happen h).terminal.history = (p.calls h).foldl (History.call Site.historyCapacity) p.terminal.history := by
  cases h with
  | field e =>
    simp only [happen, fieldEvent, calls]
    split_ifs
    · rfl
    · rw [← history_handle]
      split
      · rfl
      · rw [launch, history_drive]
  | click => rfl
  | clock now => rfl
  | reply index r =>
    simp only [happen]
    split
    · rw [history_drive]
      rfl
    · rfl
  | timer index =>
    simp only [happen]
    split
    · rw [history_drive]
      rfl
    · rfl

theorem history_happenAll (p : Page) (hs : List Happening) : ∃ calls : List History.Call,
    (p.happenAll hs).terminal.history = calls.foldl (History.call Site.historyCapacity) p.terminal.history := by
  induction hs generalizing p with
  | nil => exact ⟨[], rfl⟩
  | cons h hs ih =>
    obtain ⟨calls, hcalls⟩ := ih (p.happen h)
    refine ⟨p.calls h ++ calls, ?_⟩
    rw [List.foldl_append, ← history_happen]
    exact hcalls

theorem history_of_leavesHistory {hs : List Happening} (hleave : ∀ h ∈ hs, h.LeavesHistory) (p : Page) :
    (p.happenAll hs).terminal.history = p.terminal.history := by
  induction hs generalizing p with
  | nil => rfl
  | cons h hs ih =>
    obtain ⟨hfirst, hrest⟩ := List.forall_mem_cons.1 hleave
    calc
      ((p.happen h).happenAll hs).terminal.history
      _ = (p.happen h).terminal.history := ih hrest (p.happen h)
      _ = p.terminal.history := by rw [history_happen, calls_of_leavesHistory hfirst, List.foldl_nil]

/-- the count of a page's history goes with its lines -/
theorem Reached.stands {browser : Browser} {p : Page} (h : Reached .start browser p) :
    p.terminal.history.Stands p.terminal.history.lines p.terminal.history.position := by
  obtain ⟨hs, rfl⟩ := h
  obtain ⟨calls, hcalls⟩ := history_happenAll (ofTerminal .start browser) hs
  have hstands := History.stands_after_calls Site.historyCapacity calls
  rw [hcalls]
  exact ⟨rfl, hstands.cursor_lt, rfl⟩

/-! ## A line that is entered -/

theorem submitted?_eq_some_iff {p : Page} {e : FieldEvent} {line : String} : p.submitted? (.field e) = some line ↔
    p.isRunning = false ∧ (p.field.handle host e (p.terminal, none)).2.2 = some line := by
  cases h : p.isRunning <;> simp [submitted?_field, h]

/-- a line is entered by the call for it -/
theorem calls_of_submitted {p : Page} {e : FieldEvent} {line : String} (h : p.submitted? (.field e) = some line) :
    p.calls (.field e) = History.entering line := by
  obtain ⟨hready, hline⟩ := submitted?_eq_some_iff.1 h
  rw [calls, hready, if_neg Bool.false_ne_true]
  cases e with
  | key k =>
    cases k with
    | tab =>
      rw [Field.handle, Field.press, complete_host] at hline
      cases hline
    | enter | clear =>
      obtain rfl := Option.some.inj hline
      rfl
    | up | down | abandon | other => cases hline
  | input text => cases hline
  | stray => cases hline

/-- nothing is run for a blank line, so the field is back at once -/
theorem isRunning_of_blank {p : Page} {e : FieldEvent} {line : String} (h : p.submitted? (.field e) = some line)
    (hblank : Text.isBlankText line = true) : (p.happen (.field e)).isRunning = false := by
  obtain ⟨hready, hline⟩ := submitted?_eq_some_iff.1 h
  have hprocess : ∀ t : Terminal, t.process line = .done (.success t.session) := by
    intro t
    rw [Terminal.process, Shell.execute, Text.words_of_blank hblank]
  simp only [happen, fieldEvent, hready, Bool.false_eq_true, if_false, hline, launch, hprocess, drive, finish]

/-- the key up moves the count by a step, and the field shows the line there, if there is one -/
theorem press_up {p : Page} (hready : p.isRunning = false) {lines : List String} {pos : Nat}
    (hs : p.terminal.history.Stands lines pos) :
    let next := min (pos + 1) lines.length
    (p.happen (.field (.key .up))).terminal.history.position = next ∧
      (p.happen (.field (.key .up))).field.value = (History.stepsBack? lines next).getD p.field.value := by
  obtain ⟨hstands, hline⟩ := hs.retrieve (-1)
  rw [History.counted_up] at hstands hline
  have hretrieved : (p.terminal.retrieve (-1)).1 = History.stepsBack? lines (min (pos + 1) lines.length) := hline
  have hhistory : (p.terminal.retrieve (-1)).2.history = (p.terminal.history.retrieve (-1)).2 := rfl
  simp only [happen, fieldEvent, hready, Bool.false_eq_true, if_false, Field.handle, Field.press, host, hretrieved,
    hhistory, and_true]
  exact hstands.position_eq

/-- while none is being recalled, it goes to the newest line -/
theorem press_up_newest {p : Page} (hready : p.isRunning = false) {lines : List String} {line : String}
    (hs : p.terminal.history.Stands lines 0) (hnewest : lines.getLast? = some line) :
    (p.happen (.field (.key .up))).terminal.history.position = 1 ∧ (p.happen (.field (.key .up))).field.value = line := by
  have hone : min (0 + 1) lines.length = 1 := by
    have hsome : lines ≠ [] := by
      rintro rfl
      cases hnewest
    have hlength := List.length_pos_of_ne_nil hsome
    omega
  obtain ⟨hposition, hvalue⟩ := press_up hready hs
  rw [hone] at hposition hvalue
  rw [History.stepsBack?_one, hnewest] at hvalue
  exact ⟨hposition, hvalue⟩

end Page

/--
**The newest line after entering one.** Whatever has happened to the page of the site, let a line be entered, and then no
other one be entered or recalled. When the field is there, press the key up. If the line was not blank, it is the newest
one that is kept, and the field shows it. If it was blank, the field is there at once, the same lines are kept as before,
and the field shows the one behind that which was being recalled when it was entered, so the newest one only if none was,
or if there is just one.
-/
theorem up_after_entering {browser : Browser} {p : Page} (hp : Page.Reached .start browser p) {e : FieldEvent}
    {line : String} (hline : p.submitted? (.field e) = some line) {between : List Happening}
    (hbetween : ∀ h ∈ between, h.LeavesHistory) :
    let q := (p.happen (.field e)).happenAll between
    let lines := q.terminal.history.lines
    let pos := p.terminal.history.position
    let up := q.happen (.field (.key .up))
    (Text.isBlankText line = true → (p.happen (.field e)).isRunning = false) ∧
      (q.isRunning = false →
        (Text.isBlankText line = false → lines.getLast? = some line ∧ up.field.value = line) ∧
        (Text.isBlankText line = true → lines = p.terminal.history.lines ∧
          up.field.value = (History.stepsBack? lines (min (pos + 1) lines.length)).getD q.field.value) ∧
        (lines ≠ [] → (up.terminal.history.position = 1 ↔
          Text.isBlankText line = false ∨ pos = 0 ∨ lines.length = 1))) := by
  intro q lines pos up
  have hq : q.terminal.history =
      (History.entering line).foldl (History.call Site.historyCapacity) p.terminal.history := by
    rw [Page.history_of_leavesHistory hbetween, Page.history_happen, Page.calls_of_submitted hline]
  refine ⟨Page.isRunning_of_blank hline, ?_⟩
  intro hready
  cases hblank : Text.isBlankText line with
  | false =>
    rw [History.enter_of_not_blank hblank] at hq
    have hnewest : lines.getLast? = some line := by
      simp only [lines, hq]
      exact History.getLast?_keep (by decide) p.terminal.history.lines hblank
    have hstands : q.terminal.history.Stands lines 0 := by
      simp only [lines, hq]
      exact History.stands_add ..
    obtain ⟨hposition, hvalue⟩ := Page.press_up_newest hready hstands hnewest
    refine ⟨fun _ => ⟨hnewest, hvalue⟩, fun h => absurd h Bool.false_ne_true, ?_⟩
    exact fun _ => ⟨fun _ => Or.inl rfl, fun _ => hposition⟩
  | true =>
    rw [History.enter_of_blank hblank] at hq
    have hstands : q.terminal.history.Stands lines pos := by
      simp only [lines, pos, hq]
      exact hp.stands
    obtain ⟨hposition, hvalue⟩ := Page.press_up hready hstands
    refine ⟨fun h => absurd h.symm Bool.false_ne_true, fun _ => ⟨?_, hvalue⟩, ?_⟩
    · simp only [lines, hq]
    · intro hsome
      have hlength := List.length_pos_of_ne_nil hsome
      have hle : pos ≤ lines.length := hstands.le
      have hnext : up.terminal.history.position = min (pos + 1) lines.length := hposition
      rw [hnext]
      simp only [Bool.true_eq_false, false_or]
      omega

/-- the newest line is recalled and given up, and a blank one is entered: the key up then shows the line before it -/
theorem up_after_entering_blank :
    let entered := fun line => [Happening.field (.input line), .field (.key .enter)]
    let p := (Page.start ⟨0, 0, [], true, true, true, []⟩).happenAll
      (entered "pwd" ++ entered "ls" ++ [.field (.key .up), .field (.key .abandon)])
    let q := (p.happen (.field (.key .enter))).happenAll [.click]
    p.submitted? (.field (.key .enter)) = some "" ∧ (∀ h ∈ [Happening.click], h.LeavesHistory) ∧ q.isRunning = false ∧
      q.terminal.history.lines = ["pwd", "ls"] ∧ (q.happen (.field (.key .up))).field.value = "pwd" := by
  intro entered p q
  let hs := entered "pwd" ++ entered "ls" ++ [Happening.field (.key .up), .field (.key .abandon)]
  have hreached : Page.Reached .start ⟨0, 0, [], true, true, true, []⟩ p := ⟨hs, rfl⟩
  have hp : p = (Page.ofTerminal (.mounted (.ok Site.files)) ⟨0, 0, [], true, true, true, []⟩).happenAll hs := by
    rw [← Terminal.start_eq]
    rfl
  have hline : p.submitted? (.field (.key .enter)) = some "" := by
    rw [hp]
    decide +kernel
  have hclick : ∀ h ∈ [Happening.click], h.LeavesHistory := by simp [Happening.LeavesHistory]
  have hkept : p.terminal.history = ⟨["pwd", "ls"], some 1⟩ := by
    rw [hp]
    decide +kernel
  -- from here on it only matters what has been said of the page
  clear_value p
  obtain ⟨hback, hup⟩ := up_after_entering hreached hline hclick
  have hclicked : ∀ p : Page, (p.happenAll [.click]).isRunning = p.isRunning := fun p => rfl
  have hready : q.isRunning = false := (hclicked _).trans (hback (by decide))
  obtain ⟨-, hblank, -⟩ := hup hready
  obtain ⟨hlines, hvalue⟩ := hblank (by decide)
  rw [hkept] at hlines
  rw [hkept, hlines] at hvalue
  exact ⟨hline, hclick, hready, hlines, hvalue⟩

end PageShell
