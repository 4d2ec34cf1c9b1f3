/-
Whatever the order in which things happen, lines run one at a time.

A browser that lets time pass gives a job the replies and the timers it waits for, one after another: what it does to a
page is a sequence of happenings (`Page.reached_run`). What the same lines come to without a page is a `Log`: a session,
and everything that was written. For any happenings from the start of a page on, `lines_run_one_at_a_time` says that at
most one line is running, and that in the end the session is that of the log and the transcript shows the end of it.
-/
import PageShell.Proofs.Page.Jobs
import PageShell.Proofs.Page.Mounting
import PageShell.Proofs.Shell.Transcripts

namespace PageShell

namespace Page

theorem happenAll_append (p : Page) (hs hs' : List Happening) :
    p.happenAll (hs ++ hs') = (p.happenAll hs).happenAll hs' :=
  List.foldl_append

/-! ## Time that passes -/

/-- a process that is driven further meets the replies and the ends of pauses that the browser has ready -/
theorem drive_eq_happenAll (h : Horizon) (q : Process Outcome) {p : Page} (hp : p.jobs = []) :
    ∃ hs, drive h q p = (drive .still q p).happenAll hs := by
  induction q generalizing p with
  | done o => exact ⟨[], rfl⟩
  | write w next ih => exact ih (p := { p with terminal := p.terminal.write w }) hp
  | probe address next ih =>
    by_cases hdue : h.reaches (p.browser.probe address).2.1.due
    · let woken : Page := { p with browser := (p.browser.probe address).1.wake (p.browser.probe address).2.1 }
      obtain ⟨hs, hdrive⟩ := ih (p.browser.probe address).2.2 (p := woken) hp
      refine ⟨.reply 0 (p.browser.probe address).2.2 :: hs, ?_⟩
      simp only [drive, hdue, if_true]
      rw [hdrive]
      simp [happenAll, happen, wakeJob, hp, woken]
    · exact ⟨[], by simp [drive, hdue, happenAll]⟩
  | sleep ms next ih =>
    by_cases hdue : h.reaches (p.browser.sleep ms).2.due
    · let woken : Page := { p with browser := (p.browser.sleep ms).1.wake (p.browser.sleep ms).2 }
      obtain ⟨hs, hdrive⟩ := ih (p := woken) hp
      refine ⟨.timer 0 :: hs, ?_⟩
      simp only [drive, hdue, if_true]
      rw [hdrive]
      simp [happenAll, happen, wakeJob, hp, woken]
    · exact ⟨[], by simp [drive, hdue, happenAll]⟩

/-- a job goes on by happenings -/
theorem resume_eq_happenAll (h : Horizon) {p : Page} (hp : p.jobs.length ≤ 1) : ∃ hs, p.resume h = p.happenAll hs := by
  obtain ⟨terminal, browser, isRunning, field, jobs⟩ := p
  cases jobs with
  | nil => exact ⟨[], rfl⟩
  | cons job rest =>
    obtain rfl : rest = [] := by simpa using hp
    obtain ⟨wake, wait⟩ := job
    by_cases hdue : h.reaches wake.due
    · let woken : Page := ⟨terminal, browser.wake wake, isRunning, field, []⟩
      obtain ⟨hs, hdrive⟩ := drive_eq_happenAll h wait.over (p := woken) rfl
      have hresume : resume h ⟨terminal, browser, isRunning, field, [⟨wake, wait⟩]⟩ = drive h wait.over woken := by
        simp [resume, resumeJob, hdue, woken]
      rw [hresume, hdrive]
      cases wait with
      | reply expected next => exact ⟨.reply 0 expected :: hs, rfl⟩
      | pause next => exact ⟨.timer 0 :: hs, rfl⟩
    · exact ⟨[], by simp [resume, resumeJob, hdue, happenAll]⟩

/-- happenings from the start of a page lead to it -/
def Reached (t : Terminal) (browser : Browser) (p : Page) : Prop :=
  ∃ hs, p = (ofTerminal t browser).happenAll hs

variable {t : Terminal} {browser : Browser} {p : Page}

theorem Reached.inOrder (h : Reached t browser p) : ∃ entered, InOrder t entered p := by
  obtain ⟨hs, rfl⟩ := h
  exact ⟨_, (inOrder_ofTerminal t browser).happenAll hs⟩

theorem Reached.happen (h : Reached t browser p) (event : Happening) : Reached t browser (p.happen event) := by
  obtain ⟨hs, rfl⟩ := h
  exact ⟨hs ++ [event], by rw [happenAll_append]; rfl⟩

theorem Reached.resume (h : Reached t browser p) (horizon : Horizon) : Reached t browser (p.resume horizon) := by
  obtain ⟨entered, horder⟩ := h.inOrder
  obtain ⟨hs', hresume⟩ := resume_eq_happenAll horizon horder.length_jobs
  obtain ⟨hs, rfl⟩ := h
  exact ⟨hs ++ hs', by rw [hresume, happenAll_append]⟩

theorem Reached.step (h : Reached t browser p) (event : PageEvent) : Reached t browser (p.step event) := by
  cases event with
  | field e => exact (h.happen (.field e)).resume _
  | click => exact h.happen .click
  | advance milliseconds => exact (h.resume _).happen (.clock _)
  | settle => exact h.resume _

/-- what events do to a page, happenings do -/
theorem reached_run (t : Terminal) (browser : Browser) (events : List PageEvent) :
    Reached t browser ((ofTerminal t browser).run events) := by
  have hrun : ∀ p, Reached t browser p → Reached t browser (p.run events) := by
    induction events with
    | nil => exact fun _ h => h
    | cons event events ih => exact fun p h => ih (p.step event) (h.step event)
  exact hrun _ ⟨[], rfl⟩

end Page

/-! ## The same lines without a page -/

/-- the prompt in a directory: a tilde stands for the home directory, also at the start of what is below it -/
def promptAt (cwd : String) : String :=
  "autumn@mck.is:" ++
    if cwd = "/home/autumn" then "~"
    else if "/home/autumn/".toList <+: cwd.toList then "~" ++ String.ofList (cwd.toList.drop 12)
    else cwd

/-- where lines have come to: a session, and all that was written on the way -/
structure Log where
  session : Session
  writes : List Write

namespace Log

/-- a line is shown behind the prompt unless it is blank, and then it runs on a network with some replies -/
def enter (shell : Shell) (log : Log) (line : String) (replies : List Reply) : Log :=
  let shown : List Write :=
    if line.toList.all Text.isBlank then [] else [.append (.command (promptAt log.session.cwd) line)]
  let r := (shell.execute log.session line).run (.ofReplies replies)
  ⟨r.result.session, log.writes ++ shown ++ r.writes⟩

/-- lines one after another -/
def enterAll (shell : Shell) (log : Log) (entered : List (String × List Reply)) : Log :=
  entered.foldl (fun log e => log.enter shell e.1 e.2) log

end Log

namespace Terminal

theorem prompt_eq (t : Terminal) : t.prompt = promptAt t.session.cwd := by
  have hhost : Site.user ++ "@" ++ Site.host ++ ":" = "autumn@mck.is:" := by decide
  have hhome : Site.home = "/home/autumn" := rfl
  have hbelow : "/home/autumn/".toList = "/home/autumn".toList ++ ['/'] := by decide
  rw [prompt, promptAt, hhost, shortened, hhome, hbelow]
  generalize t.session.cwd = cwd
  congr 1
  split
  · next hrest =>
    rw [Text.dropStart?_eq_some_iff, List.append_nil, String.toList_inj] at hrest
    rw [if_pos hrest]
  · next rest hrest =>
    rw [Text.dropStart?_eq_some_iff] at hrest
    have hlonger : cwd ≠ "/home/autumn" := by
      rintro rfl
      simp at hrest
    have hdrop : cwd.toList.drop 12 = '/' :: rest := by
      rw [hrest]
      rfl
    rw [if_neg hlonger, if_pos (by simp [hrest]), hdrop, String.ofList_cons, ← String.append_assoc]
    rfl
  · next hhere hthere =>
    have hlonger : cwd ≠ "/home/autumn" := by
      rintro rfl
      exact hhere (by decide)
    have hnone : ¬"/home/autumn".toList ++ ['/'] <+: cwd.toList := by
      rintro ⟨rest, heq⟩
      apply hthere rest
      rw [Text.dropStart?_eq_some_iff, ← heq, List.append_assoc]
      rfl
    rw [if_neg hlonger, if_neg hnone]

/-- a terminal in the session of a log that shows the last thousand lines of it -/
structure Shows (t : Terminal) (shell : Shell) (log : Log) : Prop where
  shell : t.shell = shell
  session : t.session = log.session
  transcript : t.transcript = ⟨1000, keepLast 1000 (linesSinceClear log.writes)⟩

variable {t : Terminal} {shell : Shell} {log : Log}

theorem Shows.items (h : t.Shows shell log) : t.transcript.items =
    (linesSinceClear log.writes).drop ((linesSinceClear log.writes).length - 1000) := by
  rw [h.transcript, keepLast]

/-- what is written to such a terminal is shown behind what was there -/
theorem Shows.writeAll (h : t.Shows shell log) (writes : List Write) :
    t.transcript.writeAll writes = ⟨1000, keepLast 1000 (linesSinceClear (log.writes ++ writes))⟩ := by
  rw [h.transcript, Ring.writeAll_view (by decide)]

/-- a line that is entered and run leads to where the log goes -/
theorem Shows.enter (h : t.Shows shell log) (line : String) (replies : List Reply) :
    ((t.enter line).run (.ofReplies replies) line).1.Shows shell (log.enter shell line replies) := by
  have hsession : (t.enter line).session = log.session := (Page.session_enter t line).trans h.session
  have hshell : (t.enter line).shell = shell := by
    rw [← h.shell]
    unfold Terminal.enter
    split <;> rfl
  let shown : List Write :=
    if line.toList.all Text.isBlank then [] else [.append (.command (promptAt log.session.cwd) line)]
  have htranscript : (t.enter line).transcript = t.transcript.writeAll shown := by
    have hprompt : t.prompt = promptAt log.session.cwd := by rw [prompt_eq, h.session]
    have hblank : Text.isBlankText line = line.toList.all Text.isBlank := rfl
    simp only [shown, hblank, Terminal.enter]
    split
    · rfl
    · rw [← hprompt]
      rfl
  have hentered : (t.enter line).Shows shell ⟨log.session, log.writes ++ shown⟩ :=
    ⟨hshell, hsession, htranscript.trans (h.writeAll shown)⟩
  have hprocess : (t.enter line).process line = shell.execute log.session line := by
    rw [process, hshell, hsession]
  refine ⟨hshell, ?_, ?_⟩
  · rw [run, hprocess]
    rfl
  · rw [run, hprocess]
    exact hentered.writeAll _

theorem Shows.enterAll (h : t.Shows shell log) (entered : List (String × List Reply)) :
    (t.enterAll entered).Shows shell (log.enterAll shell entered) := by
  induction entered generalizing t log with
  | nil => exact h
  | cons e entered ih => exact ih (h.enter e.1 e.2)

/-- a terminal begins with one line, which says what has been mounted -/
theorem mounted_shows (loaded : Except ManifestError FileSystem) :
    let mounted : Line × FileSystem := match loaded with
      | .ok files => (.text "Welcome! Type 'help' to see available commands.", files)
      | .error e => (.error ("Failed to load filesystem: " ++ e.message), .empty)
    (Terminal.mounted loaded).Shows ⟨mounted.2, .standard⟩
      ⟨.start "/home/autumn" [("PATH", "/bin:/usr/bin"), ("HOME", "/home/autumn"), ("USER", "autumn"),
        ("SHELL", "/bin/fauxsh"), ("TERM", "xterm-256color")], [.append mounted.1]⟩ := by
  have hfirst : ∀ l : Line, Ring.push ⟨1000, []⟩ l = ⟨1000, keepLast 1000 (linesSinceClear [.append l])⟩ := by
    intro l
    have hline : linesSinceClear [.append l] = [] ++ [l] := rfl
    rw [hline, ← Ring.push_keepLast (by decide), keepLast_nil]
  cases loaded with
  | ok files => exact ⟨rfl, rfl, hfirst _⟩
  | error e => exact ⟨rfl, rfl, hfirst _⟩

end Terminal

/-! ## The page of the site -/

/--
**One line at a time.** Whatever happens to a page, and in whatever order: at most one line is waiting to go on, exactly
while the page says that one is running, and nothing touches the session as long as it is. When no line is running, the
session is that of the lines that were entered, run one after another from the start, and the transcript holds the last
thousand lines that they have written since the last `clear`, each entered line that is not blank behind the prompt of the
directory it was entered in. Events in a browser that keeps to its own schedule are such happenings. The page of the site
is one with the files of its manifest.
-/
theorem lines_run_one_at_a_time (loaded : Except ManifestError FileSystem) (browser : Browser) :
    let start := Page.ofTerminal (.mounted loaded) browser
    let mounted : Line × FileSystem := match loaded with
      | .ok files => (.text "Welcome! Type 'help' to see available commands.", files)
      | .error e => (.error ("Failed to load filesystem: " ++ e.message), .empty)
    let session := Session.start "/home/autumn" [("PATH", "/bin:/usr/bin"), ("HOME", "/home/autumn"), ("USER", "autumn"),
      ("SHELL", "/bin/fauxsh"), ("TERM", "xterm-256color")]
    (∀ hs : List Happening,
      let p := start.happenAll hs
      let log := Log.enterAll ⟨mounted.2, .standard⟩ ⟨session, [.append mounted.1]⟩ (start.record [] hs)
      let lines := linesSinceClear log.writes
      p.jobs.length ≤ 1 ∧ (p.isRunning = true ↔ p.jobs ≠ []) ∧
        (∀ h, (p.happen h).isRunning = true → (p.happen h).terminal.session = p.terminal.session) ∧
        (p.isRunning = false → p.terminal.session = log.session ∧
          p.terminal.transcript.items = lines.drop (lines.length - 1000))) ∧
      (∀ events : List PageEvent, ∃ hs, start.run events = start.happenAll hs) ∧
      Page.start browser = Page.ofTerminal (.mounted (.ok Site.files)) browser := by
  intro start mounted session
  refine ⟨fun hs => ?_, Page.reached_run _ browser, ?_⟩
  · intro p log lines
    have horder : Page.InOrder (.mounted loaded) (start.record [] hs) p :=
      (Page.inOrder_ofTerminal _ browser).happenAll hs
    have hshows : (Terminal.enterAll (.mounted loaded) (start.record [] hs)).Shows ⟨mounted.2, .standard⟩ log :=
      (Terminal.mounted_shows loaded).enterAll _
    refine ⟨horder.length_jobs, horder.isRunning_iff, fun h => Page.session_happen h, fun hready => ?_⟩
    cases horder with
    | ready _ _ terminal =>
      refine ⟨terminal.session.trans hshows.session, ?_⟩
      rw [terminal.transcript]
      exact hshows.items
    | busy _ _ _ _ _ _ running =>
      rw [hready] at running
      cases running
  · rw [Page.start, Terminal.start_eq]

/-- a blank line, a change of directory, and probes that are waited for, while the field is not there to be cleared -/
theorem lines_run_one_at_a_time_ping :
    let entered := fun line => [Happening.field (.input line), .field (.key .enter)]
    let before := entered "  " ++ entered "cd /usr" ++ entered "ping mck.is"
    let meanwhile := [Happening.reply 0 (.ok ⟨7000000⟩), .field (.key .clear), .timer 0, .reply 0 (.error .timeout)]
    let browser : Browser := ⟨0, 0, [], true, true, true, []⟩
    let start := Page.ofTerminal (.mounted (.ok Site.files)) browser
    let p := start.happenAll (before ++ meanwhile)
    Page.start browser = start ∧ (start.happenAll before).jobs.length = 1 ∧ (start.happenAll before).isRunning = true ∧
      start.record [] (before ++ meanwhile) =
        [("  ", []), ("cd /usr", []), ("ping mck.is", [.ok ⟨7000000⟩, .error .timeout])] ∧
      p.isRunning = false ∧ p.terminal.session.cwd = "/usr" ∧ p.terminal.transcript.items =
        [.text "Welcome! Type 'help' to see available commands.", .command "autumn@mck.is:~" "cd /usr",
          .command "autumn@mck.is:/usr" "ping mck.is", .text "PING mck.is 56 data bytes",
          .text ("64 bytes from mck.is: icmp_seq=1 time=" ++ (Duration.mk 7000000).text ++ " ms"),
          .error "ping: mck.is: Address not reachable"] := by
  intro entered before meanwhile browser start p
  obtain ⟨hall, -, hsite⟩ := lines_run_one_at_a_time (.ok Site.files) browser
  let shell : Shell := ⟨Site.files, .standard⟩
  let session := Session.start "/home/autumn" [("PATH", "/bin:/usr/bin"), ("HOME", "/home/autumn"), ("USER", "autumn"),
    ("SHELL", "/bin/fauxsh"), ("TERM", "xterm-256color")]
  let welcomed : Log := ⟨session, [.append (.text "Welcome! Type 'help' to see available commands.")]⟩
  let moved := welcomed.enterAll shell [("  ", []), ("cd /usr", [])]
  let log := moved.enter shell "ping mck.is" [.ok ⟨7000000⟩, .error .timeout]
  have hrecord : start.record [] (before ++ meanwhile) =
      [("  ", []), ("cd /usr", []), ("ping mck.is", [.ok ⟨7000000⟩, .error .timeout])] := by decide +kernel
  have hrunning : (start.happenAll before).isRunning = true := by decide +kernel
  have hwaiting : (start.happenAll before).jobs ≠ [] := (hall before).2.1.1 hrunning
  have hready : (start.happenAll (before ++ meanwhile)).isRunning = false := by decide +kernel
  have hresult : ∀ hs, (start.happenAll hs).isRunning = false →
      let log := Log.enterAll shell welcomed (start.record [] hs)
      let lines := linesSinceClear log.writes
      (start.happenAll hs).terminal.session = log.session ∧
        (start.happenAll hs).terminal.transcript.items = lines.drop (lines.length - 1000) := fun hs => (hall hs).2.2.2
  obtain ⟨hsession, hitems⟩ := hresult (before ++ meanwhile) hready
  rw [hrecord] at hsession hitems
  change _ = log.session at hsession
  change _ = (linesSinceClear log.writes).drop ((linesSinceClear log.writes).length - 1000) at hitems
  -- the first two lines are run by evaluation; a time in a reply is a double, so the third is run by its steps
  have hcwd : moved.session.cwd = "/usr" := by decide +kernel
  have hmoved : moved.writes = [.append (.text "Welcome! Type 'help' to see available commands."),
      .append (.command "autumn@mck.is:~" "cd /usr")] := by decide +kernel
  have hping : shell.execute moved.session "ping mck.is" = shell.call moved.session .ping ["mck.is"] :=
    Shell.execute_of_words (by decide +kernel) (show shell.command? moved.session "ping" = _ by decide +kernel)
  clear_value moved
  have hlog : log.session = moved.session ∧ log.writes = moved.writes ++
      [.append (.command (promptAt moved.session.cwd) "ping mck.is")] ++ [.append (Ping.header "mck.is"),
        .append (Ping.replyLine "mck.is" 1 ⟨7000000⟩), .append (.error "ping: mck.is: Address not reachable")] := by
    have hshown : "ping mck.is".toList.all Text.isBlank = false := by decide
    simp only [log, Log.enter, hping, hshown, Bool.false_eq_true, if_false]
    exact ⟨rfl, rfl⟩
  have hlines : linesSinceClear log.writes =
      [.text "Welcome! Type 'help' to see available commands.", .command "autumn@mck.is:~" "cd /usr",
        .command "autumn@mck.is:/usr" "ping mck.is", Ping.header "mck.is", Ping.replyLine "mck.is" 1 ⟨7000000⟩,
        .error "ping: mck.is: Address not reachable"] := by
    rw [hlog.2, hmoved, hcwd]
    rfl
  refine ⟨hsite, Nat.le_antisymm (hall before).1 (List.length_pos_iff.2 hwaiting), hrunning, hrecord, hready, ?_, ?_⟩
  · rw [hsession, hlog.1, hcwd]
  · rw [hitems, hlines]
    rfl

end PageShell
