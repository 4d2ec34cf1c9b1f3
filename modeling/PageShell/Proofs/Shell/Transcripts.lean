/-
What different transcripts keep of the same lines.

A transcript is kept while lines run (`Shell.runKeeping`): each write reaches it at once, and nothing reads it back. So
what the lines come to does not depend on it (`Shell.runKeeping_eq`), and what it holds in the end is a view of the lines
written since the last time it was cleared (`foldl_keep_of_view`), if its writes keep to the view one by one. A ring is
such a view, which shows the newest lines only, and so is a transcript without a bound that knows no errors
(`transcripts_show_same_lines`).
-/
import PageShell.Output.Transcript
import PageShell.Proofs.Shell.Sessions

namespace PageShell

variable {τ : Type}

/-! ## Running lines while a transcript is kept -/

namespace Process

variable {α : Type}

/-- run a process on a network while `keep` adds each of its writes to a transcript -/
def runKeeping (keep : τ → Write → τ) (net : Network) : Process α → τ → α × τ
  | .done a, t => (a, t)
  | .write w next, t => runKeeping keep net next (keep t w)
  | .probe _ next, t => runKeeping keep net.next (next (net 0)) t
  | .sleep _ next, t => runKeeping keep net next t

/-- the transcript gets the writes of the run, in order, and does not matter to it -/
theorem runKeeping_eq (keep : τ → Write → τ) (net : Network) (p : Process α) (t : τ) :
    p.runKeeping keep net t = ((p.run net).result, (p.run net).writes.foldl keep t) := by
  induction p generalizing net t with
  | done a => rfl
  | write w next ih => exact ih net (keep t w)
  | probe address next ih => exact ih (net 0) net.next t
  | sleep ms next ih => exact ih net t

end Process

/-- run lines one after another, each on a network of its own, while a transcript is kept; what each line comes to -/
def Shell.runKeeping (shell : Shell) (keep : τ → Write → τ) (session : Session) :
    List (String × Network) → τ → List Outcome × τ
  | [], t => ([], t)
  | (line, net) :: lines, t =>
    let (o, t) := (shell.execute session line).runKeeping keep net t
    let (os, t) := shell.runKeeping keep o.session lines t
    (o :: os, t)

theorem Shell.runKeeping_eq (shell : Shell) (keep : τ → Write → τ) (session : Session) (lines : List (String × Network))
    (t : τ) : shell.runKeeping keep session lines t =
      ((shell.runs session lines).map (·.result),
        ((shell.runs session lines).flatMap (·.writes)).foldl keep t) := by
  induction lines generalizing session t with
  | nil => rfl
  | cons l lines ih =>
    simp only [Shell.runKeeping, Shell.runs, Process.runKeeping_eq, ih, List.map_cons, List.flatMap_cons,
      List.foldl_append]

/-! ## Lines since the transcript was cleared -/

/-- the line that a write adds -/
def Write.line? : Write → Option Line
  | .append l => some l
  | .clear => none

/-- the lines added by the writes behind the last one that clears the transcript, the oldest first -/
def linesSinceClear (writes : List Write) : List Line :=
  (writes.reverse.takeWhile (· ≠ .clear)).reverse.filterMap Write.line?

theorem linesSinceClear_append (writes : List Write) (l : Line) :
    linesSinceClear (writes ++ [.append l]) = linesSinceClear writes ++ [l] := by
  simp [linesSinceClear, Write.line?]

theorem linesSinceClear_clear (writes : List Write) : linesSinceClear (writes ++ [.clear]) = [] := by
  simp [linesSinceClear]

/-- a transcript whose writes keep to a view of the lines since it was cleared shows that view after any writes -/
theorem foldl_keep_of_view {keep : τ → Write → τ} (view : List Line → τ)
    (happend : ∀ ls l, keep (view ls) (.append l) = view (ls ++ [l])) (hclear : ∀ ls, keep (view ls) .clear = view [])
    (earlier writes : List Write) :
    writes.foldl keep (view (linesSinceClear earlier)) = view (linesSinceClear (earlier ++ writes)) := by
  induction writes generalizing earlier with
  | nil => rw [List.foldl_nil, List.append_nil]
  | cons w writes ih =>
    have hstep : keep (view (linesSinceClear earlier)) w = view (linesSinceClear (earlier ++ [w])) := by
      cases w with
      | append l => rw [happend, linesSinceClear_append]
      | clear => rw [hclear, linesSinceClear_clear]
    rw [List.foldl_cons, hstep, ih, List.append_assoc, List.singleton_append]

/-! ## Two views -/

/-- writing to a ring that shows the newest lines leads to one that does -/
theorem Ring.writeAll_view {capacity : Nat} (h : 0 < capacity) (earlier writes : List Write) :
    (Ring.mk capacity (keepLast capacity (linesSinceClear earlier))).writeAll writes =
      ⟨capacity, keepLast capacity (linesSinceClear (earlier ++ writes))⟩ := by
  apply foldl_keep_of_view fun ls => Ring.mk capacity (keepLast capacity ls)
  · intro ls l
    rw [Ring.write, Ring.push_keepLast h]
  · intro ls
    rw [Ring.write, Ring.clear, keepLast_nil]

/-- writing to a transcript without errors leads to one that shows all lines in its way -/
theorem Plain.writeAll_view (earlier writes : List Write) :
    Plain.writeAll ((linesSinceClear earlier).map Plain.plain) writes =
      (linesSinceClear (earlier ++ writes)).map Plain.plain := by
  apply foldl_keep_of_view (List.map Plain.plain)
  · intro ls l
    rw [Plain.write, List.map_append, List.map_singleton]
  · intro ls
    rfl

/--
**Transcripts show the same lines.** A ring that some lines have run on holds the newest of the lines written since the
last `clear`, as many as fit, the oldest first. A transcript without a bound that knows no errors holds all of them, each
error as a line of text. What the lines come to, sessions, exit statuses and pages, is the same for rings of all
capacities and for that transcript.
-/
theorem transcripts_show_same_lines (shell : Shell) (session : Session) (lines : List (String × Network)) {capacity : Nat}
    (h : 0 < capacity) :
    let written := linesSinceClear ((shell.runs session lines).flatMap (·.writes))
    ∃ r, Ring.ofCapacity capacity = .ok r ∧
      (shell.runKeeping Ring.write session lines r).2.items = written.drop (written.length - capacity) ∧
      (shell.runKeeping Plain.write session lines []).2 = written.map Plain.plain ∧
      (∀ capacity' r', Ring.ofCapacity capacity' = .ok r' →
        (shell.runKeeping Ring.write session lines r').1 = (shell.runKeeping Ring.write session lines r).1) ∧
      (shell.runKeeping Plain.write session lines []).1 = (shell.runKeeping Ring.write session lines r).1 := by
  intro written
  have hring : Ring.ofCapacity capacity = .ok ⟨capacity, keepLast capacity (linesSinceClear [])⟩ := by
    have hnone : linesSinceClear [] = [] := rfl
    rw [Ring.ofCapacity, if_neg (Nat.ne_of_gt h), hnone, keepLast_nil]
  have hplain := Plain.writeAll_view [] ((shell.runs session lines).flatMap (·.writes))
  refine ⟨_, hring, ?_, ?_, ?_, ?_⟩
  · rw [shell.runKeeping_eq]
    exact congrArg Ring.items (Ring.writeAll_view h [] _)
  · rw [shell.runKeeping_eq]
    exact hplain
  · intro capacity' r' _
    rw [shell.runKeeping_eq, shell.runKeeping_eq]
  · rw [shell.runKeeping_eq, shell.runKeeping_eq]

/-- a ring of two lines that a listing overflows after it has been cleared -/
theorem transcripts_show_same_lines_cleared :
    let shell := Shell.mk Site.files .standard
    let lines := [("pwd", Network.ofReplies []), ("clear", .ofReplies []), ("env", .ofReplies []), ("rm x", .ofReplies [])]
    let session := Session.start "/" [("A", "1"), ("B", "2")]
    0 < 2 ∧ ∃ r, Ring.ofCapacity 2 = .ok r ∧
      (shell.runKeeping Ring.write session lines r).2.items =
        [.text "PATH=/bin:/usr/bin", .error "rm: command not found"] ∧
      (shell.runKeeping Plain.write session lines []).2 =
        [.text "A=1", .text "B=2", .text "PATH=/bin:/usr/bin", .text "rm: command not found"] := by
  intro shell lines session
  have hpositive : 0 < 2 := by decide
  have hwritten : linesSinceClear ((shell.runs session lines).flatMap (·.writes)) =
      [.text "A=1", .text "B=2", .text "PATH=/bin:/usr/bin", .error "rm: command not found"] := by decide +kernel
  obtain ⟨r, hring, hitems, hplain, -, -⟩ := transcripts_show_same_lines shell session lines hpositive
  rw [hwritten] at hitems hplain
  exact ⟨hpositive, r, hring, hitems, hplain⟩

end PageShell
