/-
How a line ends.

A command of its own writes text, images and the markup of the site, never an error, and asks only for the site's own
pages (`Builtin.all_run`, one case for each command). What is left of a line is its end: an effect is written and is a
success, an error is written last (`Ending`, `Shell.ending_execute`). `execute_errors` says what follows for the exit
status, the session and the page.
-/
import PageShell.Proofs.Shell.Sessions

namespace PageShell

/-! ## All that a process can do -/

namespace Process

variable {α β : Type} {P P' : Write → Prop} {Q : α → Prop}

/-- whatever the replies are, each write has the property `P` and the result has `Q` -/
def All (P : Write → Prop) (Q : α → Prop) : Process α → Prop
  | .done a => Q a
  | .write w next => P w ∧ All P Q next
  | .probe _ next => ∀ r, All P Q (next r)
  | .sleep _ next => All P Q next

/-- so it is on each network -/
theorem All.run {p : Process α} (h : p.All P Q) (net : Network) :
    (∀ w ∈ (p.run net).writes, P w) ∧ Q (p.run net).result := by
  induction p generalizing net with
  | done a => exact ⟨by simp [Process.run], h⟩
  | write w next ih =>
    obtain ⟨hw, hnext⟩ := h
    obtain ⟨hwrites, hresult⟩ := ih hnext net
    exact ⟨List.forall_mem_cons.2 ⟨hw, hwrites⟩, hresult⟩
  | probe address next ih => exact ih (net 0) (h (net 0)) net.next
  | sleep ms next ih => exact ih h net

theorem All.andThen {R : β → Prop} {f : α → Process β} {p : Process α} (h : p.All P Q) (hP : ∀ w, P w → P' w)
    (hf : ∀ a, Q a → (f a).All P' R) : (andThen f p).All P' R := by
  induction p with
  | done a => exact hf a h
  | write w next ih => exact ⟨hP w h.1, ih h.2⟩
  | probe address next ih => exact fun r => ih r (h r)
  | sleep ms next ih => exact ih h

theorem all_writeAll {writes : List Write} {next : Process α} (hwrites : ∀ w ∈ writes, P w) (hnext : next.All P Q) :
    (writeAll writes next).All P Q := by
  induction writes with
  | nil => exact hnext
  | cons w writes ih =>
    obtain ⟨hw, hwrites⟩ := List.forall_mem_cons.1 hwrites
    exact ⟨hw, ih hwrites⟩

end Process

/-! ## What commands write of their own -/

namespace Site

/-- the fragments of markup that come with the site -/
def fragments : List String :=
  [profileCard, nowPlaying, steamLink]

/-- the addresses that the site opens -/
def addresses : List String :=
  steamAddress :: pages.map (·.2)

theorem mem_pages_of_page? {directory url : String} (h : page? directory = some url) : (directory, url) ∈ pages := by
  obtain ⟨before, after, hpages, -⟩ := List.lookup_eq_some_iff.1 h
  simp [hpages]

theorem mem_addresses_of_page? {directory url : String} (h : page? directory = some url) : url ∈ addresses :=
  List.mem_cons_of_mem _ (List.mem_map_of_mem (mem_pages_of_page? h))

end Site

/-- what a command writes of its own: no error, no echo, and no markup but the site's -/
def Write.Proper : Write → Prop
  | .clear | .append (.text _) | .append (.image _) => True
  | .append (.markup html) => html ∈ Site.fragments
  | .append (.error _) | .append (.command _ _) => False

/-- an effect that is properly written and opens a page of the site at most -/
structure Effect.Proper (e : Effect) : Prop where
  writes : ∀ w ∈ e.writes, w.Proper
  page : ∀ url, e.page = some url → url ∈ Site.addresses

/-- a result is an error or a proper effect -/
def ProperResult (r : Except ShellError Effect) : Prop :=
  ∀ effect, r = .ok effect → effect.Proper

theorem properResult_error (e : ShellError) : ProperResult (.error e) := by
  intro effect h
  cases h

theorem Effect.Proper.result {effect : Effect} (h : effect.Proper) : ProperResult (.ok effect) := by
  intro effect' heq
  cases heq
  exact h

namespace Effect

theorem proper_nothing : nothing.Proper where
  writes := by simp [nothing]
  page := by simp [nothing]

theorem proper_lines {ls : List Line} (h : ∀ l ∈ ls, (Write.append l).Proper) : (lines ls).Proper where
  writes := by simpa [lines] using h
  page := by simp [lines, nothing]

theorem proper_text (s : String) : (text s).Proper :=
  proper_lines (by simp [Write.Proper])

end Effect

namespace Commands

variable (ctx : Context) (args : List String)

theorem proper_ls : ProperResult (ls ctx args) := by
  unfold ls
  dsimp only
  split
  · exact (Effect.proper_text _).result
  · exact (Effect.proper_text _).result
  · exact (Effect.proper_text _).result
  · exact properResult_error _

theorem proper_cd : ProperResult (cd ctx args) := by
  unfold cd
  dsimp only
  split
  · exact Effect.Proper.result ⟨by simp, fun url h => Site.mem_addresses_of_page? h⟩
  · exact properResult_error _
  · exact properResult_error _
  · exact properResult_error _

theorem proper_tree : ProperResult (tree ctx args) := by
  unfold tree
  dsimp only
  split
  · exact properResult_error _
  · exact (Effect.proper_lines (by simp [Write.Proper])).result

theorem proper_cat : ProperResult (cat ctx args) := by
  unfold cat
  split
  · exact properResult_error _
  · rename_i operand rest
    split
    · exact properResult_error _
    · exact properResult_error _
    · exact (Effect.proper_text _).result
    · refine (Effect.proper_lines ?_).result
      cases showsImage operand <;> simp [Write.Proper]
    · exact properResult_error _

theorem proper_which : ProperResult (which ctx args) := by
  unfold which
  split
  · exact properResult_error _
  · split
    · exact properResult_error _
    · exact (Effect.proper_text _).result

end Commands

theorem Ping.all_probes (address : String) (n number : Nat) :
    (probes address n number).All Write.Proper ProperResult := by
  induction n generalizing number with
  | zero => exact Effect.proper_nothing.result
  | succ n ih =>
    intro r
    cases r with
    | error e => exact properResult_error _
    | ok elapsed =>
      refine ⟨trivial, ?_⟩
      split
      · exact Effect.proper_nothing.result
      · exact ih (number + 1)

/-- commands write properly and ask for proper effects -/
theorem Builtin.all_run (b : Builtin) (ctx : Context) (args : List String) :
    (b.run ctx args).All Write.Proper ProperResult := by
  cases b with
  | ls => exact Commands.proper_ls ctx args
  | cd => exact Commands.proper_cd ctx args
  | tree => exact Commands.proper_tree ctx args
  | cat => exact Commands.proper_cat ctx args
  | which => exact Commands.proper_which ctx args
  | ping =>
    cases args with
    | nil => exact properResult_error _
    | cons address args => exact ⟨trivial, Ping.all_probes address Ping.count 1⟩
  | echo => exact (Effect.proper_text _).result
  | pwd => exact (Effect.proper_text _).result
  | help => exact (Effect.proper_lines (by simp [Write.Proper])).result
  | env =>
    have hvars : ∀ l ∈ ctx.session.env.vars.map fun v => Line.text (v.1 ++ "=" ++ v.2), (Write.append l).Proper :=
      List.forall_mem_map.2 fun _ _ => trivial
    exact (Effect.proper_lines hvars).result
  | clear => exact Effect.Proper.result ⟨by simp [Write.Proper], by simp [Effect.nothing]⟩
  | whoami => exact (Effect.proper_lines (by simp [Write.Proper, Site.fragments])).result
  | fetchMusic => exact (Effect.proper_lines (by simp [Write.Proper, Site.fragments])).result
  | steam =>
    exact Effect.Proper.result
      ⟨by simp [Commands.steam, Write.Proper, Site.fragments], by simp [Commands.steam, Site.addresses]⟩

/-! ## How a line ends -/

/-- how the run of a line ends that has found `session` -/
inductive Ending (session : Session) (r : Run Outcome) : Prop where
  | success (writes : ∀ w ∈ r.writes, w.Proper) (status : r.result.status = 0)
      (page : ∀ url, r.result.page = some url → url ∈ Site.addresses)
  | failure (e : ShellError) (before : List Write) (proper : ∀ w ∈ before, w.Proper)
      (writes : r.writes = before ++ [.append (.error e.message)]) (result : r.result = ⟨session, e.status, none⟩)

theorem ending_conclude (session : Session) {result : Except ShellError Effect} (h : ProperResult result)
    {before : List Write} (hbefore : ∀ w ∈ before, w.Proper) (calls : List Call) (net : Network) :
    Ending session ⟨before ++ ((conclude session result).run net).writes, calls,
      ((conclude session result).run net).result⟩ := by
  cases result with
  | ok effect =>
    obtain ⟨hwrites, hpage⟩ := h effect rfl
    rw [conclude, Process.run_writeAll]
    refine .success ?_ rfl hpage
    simp only [Process.run, List.append_nil]
    exact List.forall_mem_append.2 ⟨hbefore, hwrites⟩
  | error e => exact .failure e before hbefore rfl rfl

/-- each line ends in success, or with one error and nothing else changed -/
theorem Shell.ending_execute (shell : Shell) (session : Session) (line : String) (net : Network) :
    Ending session ((shell.execute session line).run net) := by
  cases hb : shell.commandOf? session line with
  | none =>
    rcases shell.execute_of_commandOf?_eq_none hb with h | ⟨name, h⟩
    · rw [h]
      exact .success (by simp [Process.run]) rfl (by simp [Process.run, Outcome.success])
    · rw [h]
      exact .failure (.commandNotFound name) [] (by simp) rfl rfl
  | some b =>
    let args := (Text.words line).tail
    obtain ⟨hwrites, hresult⟩ := (b.all_run ⟨shell, session⟩ args).run net
    obtain ⟨rest, hrun⟩ := Process.run_andThen (conclude session) (b.run ⟨shell, session⟩ args) net
    rw [shell.execute_of_commandOf? hb, call, hrun]
    exact ending_conclude session hresult hwrites _ rest

/-! ## Errors -/

/-- an error is written -/
def Write.isError : Write → Bool
  | .append (.error _) => true
  | _ => false

theorem Write.Proper.isError {w : Write} (h : w.Proper) : w.isError = false := by
  match w with
  | .clear | .append (.text _) | .append (.image _) | .append (.markup _) => rfl
  | .append (.error _) => exact h.elim

theorem error_not_mem_of_proper {writes : List Write} (h : ∀ w ∈ writes, w.Proper) (s : String) :
    .append (.error s) ∉ writes := by
  intro hs
  exact h _ hs

theorem countP_isError_of_proper {writes : List Write} (h : ∀ w ∈ writes, w.Proper) :
    writes.countP Write.isError = 0 := by
  apply List.countP_eq_zero.2
  intro w hw
  simp [(h w hw).isError]

/-- the error that a failure ends with is the only one -/
theorem error_mem_concat_iff {before : List Write} (h : ∀ w ∈ before, w.Proper) {s message : String} :
    .append (.error s) ∈ before ++ [.append (.error message)] ↔ s = message := by
  rw [List.mem_append, List.mem_singleton]
  constructor
  · intro hs
    rcases hs with hs | hs
    · exact absurd hs (error_not_mem_of_proper h s)
    · simpa using hs
  · intro hs
    rw [hs]
    exact Or.inr rfl

namespace ShellError

theorem status_eq (e : ShellError) : e.status = if e = .unsupportedType then 0 else 1 := by
  cases e <;> rfl

/-- no other error reads like a file that cannot be shown, since none ends in an exclamation mark -/
theorem message_eq_unsupportedType_iff {e : ShellError} :
    e.message = message .unsupportedType ↔ e = .unsupportedType := by
  refine ⟨fun h => ?_, fun h => by rw [h]⟩
  have hlast : ∀ s t : String, t ≠ "" → s ++ t = message .unsupportedType → t.toList.getLast? = some '!' := by
    intro s t ht h
    have hne : t.toList ≠ [] := by simpa using ht
    have hend : (s ++ t).toList.getLast? = some '!' := by
      rw [h]
      decide
    rwa [String.toList_append, List.getLast?_append, List.getLast?_eq_some_getLast hne, Option.some_or,
      ← List.getLast?_eq_some_getLast hne] at hend
  cases e with
  | unsupportedType => rfl
  | missingDestination => exact absurd h (by decide)
  | _ => exact absurd (hlast _ _ (by decide) h) (by decide)

end ShellError

/--
**Errors of a line.** The exit status is 0 or 1. At most one error is written, as the last write of all; then the session
is what it was and no page is opened. The exit status is 1 exactly if an error is written that is not about a file that
cannot be shown; that one gives 0, as does a line without any error.
-/
theorem execute_errors (shell : Shell) (session : Session) (line : String) (net : Network) :
    let r := (shell.execute session line).run net
    (r.result.status = 0 ∨ r.result.status = 1) ∧
      r.writes.countP Write.isError ≤ 1 ∧
      (∀ s, .append (.error s) ∈ r.writes →
        r.writes.getLast? = some (.append (.error s)) ∧ r.result.session = session ∧ r.result.page = none) ∧
      (r.result.status = 1 ↔
        ∃ s, .append (.error s) ∈ r.writes ∧ s ≠ ShellError.message .unsupportedType) ∧
      (.append (.error (ShellError.message .unsupportedType)) ∈ r.writes → r.result.status = 0) ∧
      ((∀ s, .append (.error s) ∉ r.writes) → r.result.status = 0) := by
  intro r
  rcases shell.ending_execute session line net with ⟨hproper, hstatus, -⟩ | ⟨e, before, hproper, hwrites, hresult⟩
  · have hnone : ∀ s, .append (.error s) ∉ r.writes := error_not_mem_of_proper hproper
    have hcount : r.writes.countP Write.isError = 0 := countP_isError_of_proper hproper
    refine ⟨Or.inl hstatus, by omega, fun s hs => absurd hs (hnone s), ?_, fun _ => hstatus, fun _ => hstatus⟩
    constructor
    · intro h
      rw [hstatus] at h
      cases h
    · intro ⟨s, hs, _⟩
      exact absurd hs (hnone s)
  · have honly : ∀ s, .append (.error s) ∈ r.writes ↔ s = e.message := by
      intro s
      rw [hwrites, error_mem_concat_iff hproper]
    have hstatus : r.result.status = if e = .unsupportedType then 0 else 1 := by
      rw [hresult, ← e.status_eq]
    refine ⟨?_, ?_, ?_, ?_, ?_, ?_⟩
    · rw [hstatus]
      split
      · exact Or.inl rfl
      · exact Or.inr rfl
    · rw [hwrites, List.countP_append, countP_isError_of_proper hproper]
      simp [Write.isError]
    · intro s hs
      rw [(honly s).1 hs, hwrites, hresult]
      simp
    · rw [hstatus]
      simp only [honly]
      constructor
      · intro h
        refine ⟨e.message, rfl, fun hm => ?_⟩
        rw [if_pos (ShellError.message_eq_unsupportedType_iff.1 hm)] at h
        cases h
      · intro ⟨s, hs, hne⟩
        rw [if_neg fun h => hne (by rw [hs, h])]
    · intro h
      have hmessage : e.message = ShellError.message .unsupportedType := ((honly _).1 h).symm
      rw [hstatus, if_pos (ShellError.message_eq_unsupportedType_iff.1 hmessage)]
    · intro h
      exact absurd ((honly e.message).2 rfl) (h e.message)

end PageShell
