/-
Lines run one at a time.

Nothing in a page keeps two jobs apart but the field, which is not there while a line is running. `InOrder` is what every
happening keeps: either nothing is running, and the terminal is the one that the lines entered so far lead to one after
another (`Terminal.enterAll`), or the last line entered is running, alone, and the terminal is the one it found with what
it has written since. Each line meets the replies that happened while it ran (`Page.noted`).
-/
import Mathlib.Data.List.ModifyLast
import PageShell.Page.Basic

namespace PageShell

/-! ## Where a process gets to with some replies -/

namespace Network

/-- a network that gives one reply, and then those of another network -/
def cons (r : Reply) (net : Network) : Network
  | 0 => r
  | n + 1 => net n

/-- a network that gives some replies, and then those of another network -/
def after (replies : List Reply) (net : Network) : Network :=
  fun n => replies.getD n (net (n - replies.length))

theorem after_concat (replies : List Reply) (r : Reply) (net : Network) :
    after (replies ++ [r]) net = after replies (cons r net) := by
  funext n
  simp only [after, List.getD_eq_getElem?_getD, List.length_append, List.length_singleton]
  rcases Nat.lt_trichotomy n replies.length with h | h | h
  · rw [List.getElem?_append_left h, List.getElem?_eq_getElem h]
    rfl
  · subst h
    simp [cons]
  · obtain ⟨k, rfl⟩ : ∃ k, n = replies.length + 1 + k := ⟨n - replies.length - 1, by omega⟩
    have hpast : replies.length + 1 + k - replies.length = k + 1 := by omega
    have hrest : replies.length + 1 + k - (replies.length + 1) = k := by omega
    rw [List.getElem?_eq_none (by simp), List.getElem?_eq_none (by omega), hpast, hrest]
    rfl

theorem ofReplies_eq_after (replies : List Reply) :
    ofReplies replies = after replies fun _ => .ok (.ofMilliseconds 20) := rfl

end Network

namespace Process

variable {α : Type}

/-- with `replies` a process comes to another one, and has written `writes` by then -/
inductive Comes (start : Process α) : (replies : List Reply) → (writes : List Write) → Process α → Prop where
  | here : Comes start [] [] start
  | write {replies : List Reply} {writes : List Write} {w : Write} {next : Process α}
      (h : Comes start replies writes (.write w next)) : Comes start replies (writes ++ [w]) next
  | reply {replies : List Reply} {writes : List Write} {address : String} {next : Reply → Process α}
      (h : Comes start replies writes (.probe address next)) (r : Reply) :
      Comes start (replies ++ [r]) writes (next r)
  | pause {replies : List Reply} {writes : List Write} {ms : Nat} {next : Process α}
      (h : Comes start replies writes (.sleep ms next)) : Comes start replies writes next

/-- on a network that begins with the replies, a process runs through what it comes to -/
theorem Comes.run {start p : Process α} {replies : List Reply} {writes : List Write} (h : start.Comes replies writes p)
    (net : Network) : (start.run (.after replies net)).writes = writes ++ (p.run net).writes ∧
      (start.run (.after replies net)).result = (p.run net).result := by
  induction h generalizing net with
  | here => exact ⟨rfl, rfl⟩
  | write h ih =>
    obtain ⟨hwrites, hresult⟩ := ih net
    exact ⟨by rw [hwrites, List.append_assoc]; rfl, hresult⟩
  | reply h r ih =>
    rw [Network.after_concat]
    exact ih (.cons r net)
  | pause h ih => exact ih net

/-- a process that is done has run on the network of its replies -/
theorem Comes.run_ofReplies {start : Process α} {replies : List Reply} {writes : List Write} {a : α}
    (h : start.Comes replies writes (.done a)) :
    (start.run (.ofReplies replies)).writes = writes ∧ (start.run (.ofReplies replies)).result = a := by
  rw [Network.ofReplies_eq_after]
  simpa [Process.run] using h.run fun _ => .ok (.ofMilliseconds 20)

end Process

/-! ## Lines entered one after another -/

namespace Terminal

/-- enter lines one after another and run each on a network with its replies -/
def enterAll (t : Terminal) (entered : List (String × List Reply)) : Terminal :=
  entered.foldl (fun t e => ((t.enter e.1).run (.ofReplies e.2) e.1).1) t

theorem enterAll_concat (t : Terminal) (entered : List (String × List Reply)) (line : String) (replies : List Reply) :
    t.enterAll (entered ++ [(line, replies)]) =
      (((t.enterAll entered).enter line).run (.ofReplies replies) line).1 := by
  simp [enterAll, List.foldl_append]

/-- terminals of one shell, in the same session, that show the same -/
structure Alike (t u : Terminal) : Prop where
  shell : t.shell = u.shell
  session : t.session = u.session
  transcript : t.transcript = u.transcript

theorem Alike.refl (t : Terminal) : t.Alike t := ⟨rfl, rfl, rfl⟩

theorem Alike.trans {t u v : Terminal} (h : t.Alike u) (h' : u.Alike v) : t.Alike v :=
  ⟨h.shell.trans h'.shell, h.session.trans h'.session, h.transcript.trans h'.transcript⟩

theorem Alike.process {t u : Terminal} (h : t.Alike u) (line : String) : t.process line = u.process line := by
  rw [Terminal.process, Terminal.process, h.shell, h.session]

theorem Alike.enter {t u : Terminal} (h : t.Alike u) (line : String) : (t.enter line).Alike (u.enter line) := by
  have hprompt : t.prompt = u.prompt := by rw [prompt, prompt, h.session]
  unfold Terminal.enter
  split
  · exact h
  · exact ⟨h.shell, h.session, by simp only [remember, echo, write, h.transcript, hprompt]⟩

end Terminal

theorem Ring.writeAll_concat (r : Ring Line) (writes : List Write) (w : Write) :
    r.writeAll (writes ++ [w]) = (r.writeAll writes).write w := by
  simp [writeAll, List.foldl_append]

/-! ## A line until it waits -/

/-- a wait at which the process `start` has got `replies` and written `writes` -/
def Wait.Of (start : Process Outcome) (replies : List Reply) (writes : List Write) : Wait → Prop
  | .reply _ next => ∃ address, start.Comes replies writes (.probe address next)
  | .pause next => ∃ ms, start.Comes replies writes (.sleep ms next)

namespace Page

/-- while the time stands still, a process is done, or is left as a job where it first waits -/
theorem drive_still {start q : Process Outcome} {replies : List Reply} {writes : List Write}
    (hq : start.Comes replies writes q) {r : Ring Line} {p : Page} (hp : p.terminal.transcript = r.writeAll writes) :
    (∃ writes' o, start.Comes replies writes' (.done o) ∧
      (drive .still q p).terminal = { p.terminal with transcript := r.writeAll writes', session := o.session } ∧
      (drive .still q p).isRunning = false ∧ (drive .still q p).jobs = p.jobs) ∨
    ∃ writes' job, job.wait.Of start replies writes' ∧
      (drive .still q p).terminal = { p.terminal with transcript := r.writeAll writes' } ∧
      (drive .still q p).isRunning = p.isRunning ∧ (drive .still q p).jobs = p.jobs ++ [job] := by
  induction q generalizing writes p with
  | done o => exact Or.inl ⟨writes, o, hq, by simp [drive, finish, ← hp], rfl, rfl⟩
  | write w next ih =>
    have hwritten : (p.terminal.write w).transcript = r.writeAll (writes ++ [w]) := by
      rw [Ring.writeAll_concat, ← hp]
      rfl
    exact ih hq.write (p := { p with terminal := p.terminal.write w }) hwritten
  | probe address next ih =>
    exact Or.inr ⟨writes, ⟨_, .reply _ next⟩, ⟨address, hq⟩, by simp [drive, ← hp], rfl, rfl⟩
  | sleep ms next ih =>
    exact Or.inr ⟨writes, ⟨_, .pause next⟩, ⟨ms, hq⟩, by simp [drive, ← hp], rfl, rfl⟩

/-! ## The field -/

/-- a completion changes neither the terminal nor what is submitted -/
theorem complete_host (f : Field) (s : Terminal × Option String) : (f.complete host s).2 = s := by
  obtain ⟨t, submitted⟩ := s
  unfold Field.complete
  split
  · rfl
  · split
    · rfl
    · cases hc : t.complete f.value with
      | none => simp [host, hc]
      | single line => simp [host, hc]
      | several line candidates =>
        simp only [host, hc]
        split <;> rfl

/-- what happens to the field has a line run, which is entered first, or leaves session and transcript as they were -/
theorem handle_host (f : Field) (e : FieldEvent) (t : Terminal) :
    ((f.handle host e (t, none)).2.2 = none ∧ (f.handle host e (t, none)).2.1.Alike t) ∨
      ∃ line, (f.handle host e (t, none)).2.2 = some line ∧ (f.handle host e (t, none)).2.1 = t.enter line := by
  cases e with
  | input text => exact Or.inl ⟨rfl, .refl t⟩
  | stray => exact Or.inl ⟨rfl, .refl t⟩
  | key k =>
    cases k with
    | tab =>
      have hstate : (f.handle host (.key .tab) (t, none)).2 = (t, none) := complete_host f (t, none)
      rw [hstate]
      exact Or.inl ⟨rfl, .refl t⟩
    | enter => exact Or.inr ⟨f.value, rfl, rfl⟩
    | clear => exact Or.inr ⟨"clear", rfl, rfl⟩
    | up => exact Or.inl ⟨rfl, rfl, rfl, rfl⟩
    | down => exact Or.inl ⟨rfl, rfl, rfl, rfl⟩
    | abandon => exact Or.inl ⟨rfl, .refl t⟩
    | other => exact Or.inl ⟨rfl, .refl t⟩

/-! ## The lines that are entered -/

/-- the line that a happening has the page run: what the field holds, or `clear`, if there is a field -/
def submitted? (p : Page) : Happening → Option String
  | .field (.key .enter) => p.field?.map (·.value)
  | .field (.key .clear) => p.field?.map fun _ => "clear"
  | _ => none

/-- it is the line that the field submits -/
theorem submitted?_field (p : Page) (e : FieldEvent) :
    p.submitted? (.field e) = if p.isRunning then none else (p.field.handle host e (p.terminal, none)).2.2 := by
  have htab : (p.field.handle host (.key .tab) (p.terminal, none)).2.2 = none :=
    congrArg Prod.snd (complete_host p.field (p.terminal, none))
  cases hrunning : p.isRunning with
  | true => cases e with
    | key k => cases k <;> simp [submitted?, field?, hrunning]
    | input text | stray => rfl
  | false => cases e with
    | key k =>
      cases k with
      | tab => exact htab.symm
      | enter | clear => simp [submitted?, field?, hrunning, Field.handle, Field.press, host]
      | up | down | abandon | other => rfl
    | input text | stray => rfl

/-- the reply that a job gets by a happening -/
def accepted? (p : Page) : Happening → Option Reply
  | .reply index r =>
    match p.jobs[index]? with
    | some ⟨_, .reply _ _⟩ => some r
    | _ => none
  | _ => none

/-- the lines entered, each with the replies that came while it was the last one, after a happening -/
def noted (p : Page) (entered : List (String × List Reply)) (h : Happening) : List (String × List Reply) :=
  match p.submitted? h, p.accepted? h with
  | some line, _ => entered ++ [(line, [])]
  | none, some r => entered.modifyLast fun e => (e.1, e.2 ++ [r])
  | none, none => entered

/-- the lines entered, with their replies, after some happenings -/
def record (p : Page) (entered : List (String × List Reply)) : List Happening → List (String × List Reply)
  | [] => entered
  | h :: hs => (p.happen h).record (p.noted entered h) hs

/-! ## What every happening keeps -/

/-- the lines entered have run one after another, but for the last one, which may be running now -/
inductive InOrder (first : Terminal) (entered : List (String × List Reply)) (p : Page) : Prop where
  | ready (running : p.isRunning = false) (jobs : p.jobs = []) (terminal : p.terminal.Alike (first.enterAll entered))
  | busy (earlier : List (String × List Reply)) (line : String) (replies : List Reply) (writes : List Write) (job : Job)
      (entered_eq : entered = earlier ++ [(line, replies)]) (running : p.isRunning = true) (jobs : p.jobs = [job])
      (wait : job.wait.Of (((first.enterAll earlier).enter line).process line) replies writes)
      (terminal : p.terminal.Alike
        { (first.enterAll earlier).enter line with
          transcript := ((first.enterAll earlier).enter line).transcript.writeAll writes })

variable {first : Terminal} {entered : List (String × List Reply)} {p : Page}

theorem InOrder.isRunning_iff (h : InOrder first entered p) : p.isRunning = true ↔ p.jobs ≠ [] := by
  cases h with
  | ready running jobs _ => simp [running, jobs]
  | busy _ _ _ _ job _ running jobs => simp [running, jobs]

theorem InOrder.length_jobs (h : InOrder first entered p) : p.jobs.length ≤ 1 := by
  cases h with
  | ready _ jobs _ => simp [jobs]
  | busy _ _ _ _ job _ _ jobs => simp [jobs]

/-- the last line goes on until it waits again or is done -/
theorem inOrder_drive {earlier : List (String × List Reply)} {line : String} {replies : List Reply}
    {writes : List Write} {q : Process Outcome}
    (hq : (((first.enterAll earlier).enter line).process line).Comes replies writes q) (hrunning : p.isRunning = true)
    (hjobs : p.jobs = []) (hterminal : p.terminal.Alike
      { (first.enterAll earlier).enter line with
        transcript := ((first.enterAll earlier).enter line).transcript.writeAll writes }) :
    InOrder first (earlier ++ [(line, replies)]) (drive .still q p) := by
  rcases drive_still hq hterminal.transcript with
    ⟨writes', o, hdone, hafter, hstopped, hleft⟩ | ⟨writes', job, hwait, hafter, hgoing, hleft⟩
  · refine .ready hstopped (hleft.trans hjobs) ?_
    obtain ⟨hwrites, hresult⟩ := hdone.run_ofReplies
    rw [hafter, Terminal.enterAll_concat]
    exact ⟨hterminal.shell, by rw [Terminal.run, hresult], by rw [Terminal.run, hwrites]⟩
  · refine .busy earlier line replies writes' job rfl (hgoing.trans hrunning) (by rw [hleft, hjobs]; rfl) hwait ?_
    rw [hafter]
    exact ⟨hterminal.shell, hterminal.session, rfl⟩

/-- a line that is entered while nothing is running is the last one from then on -/
theorem inOrder_launch {t : Terminal} (h : t.Alike (first.enterAll entered)) (line : String)
    (hterminal : p.terminal = t.enter line) (hjobs : p.jobs = []) :
    InOrder first (entered ++ [(line, [])]) (p.launch line) := by
  have hentered := h.enter line
  rw [← hterminal] at hentered
  rw [Page.launch, hentered.process line]
  exact inOrder_drive .here rfl hjobs hentered

theorem InOrder.fieldEvent (h : InOrder first entered p) (e : FieldEvent) :
    InOrder first (p.noted entered (.field e)) (p.fieldEvent e) := by
  cases h with
  | busy earlier line replies writes job hentered running jobs wait terminal =>
    have hnoted : p.noted entered (.field e) = entered := by simp [noted, submitted?_field, accepted?, running]
    rw [hnoted, Page.fieldEvent, if_pos running]
    exact .busy earlier line replies writes job hentered running jobs wait terminal
  | ready running jobs terminal =>
    have hsubmitted : p.submitted? (.field e) = (p.field.handle host e (p.terminal, none)).2.2 := by
      simp [submitted?_field, running]
    rcases handle_host p.field e p.terminal with ⟨hnone, halike⟩ | ⟨line, hsome, henter⟩
    · have hnoted : p.noted entered (.field e) = entered := by simp [noted, accepted?, hsubmitted, hnone]
      rw [hnoted, Page.fieldEvent]
      simp only [running, Bool.false_eq_true, if_false, hnone]
      exact .ready rfl jobs (halike.trans terminal)
    · have hnoted : p.noted entered (.field e) = entered ++ [(line, [])] := by simp [noted, hsubmitted, hsome]
      rw [hnoted, Page.fieldEvent]
      simp only [running, Bool.false_eq_true, if_false, hsome]
      exact inOrder_launch terminal line henter jobs

/-- a job that is found is that of the last line, and there is no other one -/
theorem InOrder.busy_of_job (h : InOrder first entered p) {index : Nat} {job : Job} (hjob : p.jobs[index]? = some job) :
    ∃ earlier line replies writes, entered = earlier ++ [(line, replies)] ∧ p.isRunning = true ∧
      p.jobs.eraseIdx index = [] ∧
      job.wait.Of (((first.enterAll earlier).enter line).process line) replies writes ∧
      p.terminal.Alike { (first.enterAll earlier).enter line with
        transcript := ((first.enterAll earlier).enter line).transcript.writeAll writes } := by
  cases h with
  | ready running jobs terminal =>
    rw [jobs] at hjob
    cases hjob
  | busy earlier line replies writes only hentered running jobs wait terminal =>
    rw [jobs] at hjob ⊢
    cases index with
    | zero =>
      obtain rfl : only = job := by simpa using hjob
      exact ⟨earlier, line, replies, writes, hentered, running, rfl, wait, terminal⟩
    | succ index => cases hjob

theorem InOrder.reply (h : InOrder first entered p) (index : Nat) (r : Reply) :
    InOrder first (p.noted entered (.reply index r)) (p.happen (.reply index r)) := by
  cases hjob : p.jobs[index]? with
  | none => simpa [noted, submitted?, accepted?, happen, hjob] using h
  | some job =>
    obtain ⟨wake, wait⟩ := job
    cases wait with
    | pause next => simpa [noted, submitted?, accepted?, happen, hjob] using h
    | reply expected next =>
      obtain ⟨earlier, line, replies, writes, rfl, running, alone, ⟨address, hcomes⟩, terminal⟩ := h.busy_of_job hjob
      have hnoted : p.noted (earlier ++ [(line, replies)]) (.reply index r) = earlier ++ [(line, replies ++ [r])] := by
        simp [noted, submitted?, accepted?, hjob, List.modifyLast_concat]
      have hhappen : p.happen (.reply index r) = drive .still (next r) (p.wakeJob index wake) := by simp [happen, hjob]
      rw [hnoted, hhappen]
      exact inOrder_drive (hcomes.reply r) running alone terminal

theorem InOrder.timer (h : InOrder first entered p) (index : Nat) :
    InOrder first (p.noted entered (.timer index)) (p.happen (.timer index)) := by
  have hnoted : p.noted entered (.timer index) = entered := by simp [noted, submitted?, accepted?]
  rw [hnoted]
  cases hjob : p.jobs[index]? with
  | none => simpa [happen, hjob] using h
  | some job =>
    obtain ⟨wake, wait⟩ := job
    cases wait with
    | reply expected next => simpa [happen, hjob] using h
    | pause next =>
      obtain ⟨earlier, line, replies, writes, rfl, running, alone, ⟨ms, hcomes⟩, terminal⟩ := h.busy_of_job hjob
      have hhappen : p.happen (.timer index) = drive .still next (p.wakeJob index wake) := by simp [happen, hjob]
      rw [hhappen]
      exact inOrder_drive hcomes.pause running alone terminal

/-- the browser does not matter -/
theorem InOrder.withBrowser (h : InOrder first entered p) (browser : Browser) :
    InOrder first entered { p with browser } := by
  cases h with
  | ready running jobs terminal => exact .ready running jobs terminal
  | busy earlier line replies writes job hentered running jobs wait terminal =>
    exact .busy earlier line replies writes job hentered running jobs wait terminal

theorem InOrder.happen (h : InOrder first entered p) (event : Happening) :
    InOrder first (p.noted entered event) (p.happen event) := by
  cases event with
  | field e => exact h.fieldEvent e
  | reply index r => exact h.reply index r
  | timer index => exact h.timer index
  | click => exact h.withBrowser _
  | clock now => exact h.withBrowser _

/-- so do all happenings, from the beginning on -/
theorem InOrder.happenAll (h : InOrder first entered p) (hs : List Happening) :
    InOrder first (p.record entered hs) (p.happenAll hs) := by
  induction hs generalizing p entered with
  | nil => exact h
  | cons event hs ih => exact ih (h.happen event)

theorem inOrder_ofTerminal (t : Terminal) (browser : Browser) : InOrder t [] (ofTerminal t browser) :=
  .ready rfl rfl (.refl t)

/-! ## The session while a line is running -/

theorem session_enter (t : Terminal) (line : String) : (t.enter line).session = t.session := by
  unfold Terminal.enter
  split <;> rfl

/-- a process that is not done has not touched the session -/
theorem session_drive_still {q : Process Outcome} (h : (drive .still q p).isRunning = true) :
    (drive .still q p).terminal.session = p.terminal.session := by
  have hhere : q.Comes [] [] q := .here
  have hstart : p.terminal.transcript = p.terminal.transcript.writeAll [] := rfl
  rcases drive_still hhere hstart with ⟨_, _, -, -, hstopped, -⟩ | ⟨_, _, -, hafter, -, -⟩
  · rw [hstopped] at h
    cases h
  · rw [hafter]

/-- a happening after which a line is running has not touched the session -/
theorem session_happen (event : Happening) (h : (p.happen event).isRunning = true) :
    (p.happen event).terminal.session = p.terminal.session := by
  cases event with
  | click => rfl
  | clock now => rfl
  | field e =>
    by_cases hready : p.isRunning = true
    · simp [happen, fieldEvent, hready]
    · simp only [happen, fieldEvent, hready, Bool.false_eq_true, if_false] at h ⊢
      rcases handle_host p.field e p.terminal with ⟨hnone, halike⟩ | ⟨line, hsome, henter⟩
      · simp only [hnone]
        exact halike.session
      · simp only [hsome] at h ⊢
        rw [launch, session_drive_still h]
        simp only [henter, session_enter]
  | reply index r =>
    simp only [happen] at h ⊢
    split at h
    · rw [session_drive_still h]
      rfl
    · rfl
  | timer index =>
    simp only [happen] at h ⊢
    split at h
    · rw [session_drive_still h]
      rfl
    · rfl

end Page

end PageShell
