/-
Recalling entered lines, as a counter.

Where a history stands can be counted from its end (`History.position`): at 0 no line is being recalled, and the newest
line is one step back. Moving the cursor is a step of that counter, which stops at both ends, and the line at its new
count is retrieved (`Stands.retrieve`); entering a line sets the count to 0. So what a call retrieves depends only on the
lines and on the directions since a line was last entered (`stands_after_calls`). The keys of the field are such calls
(`Stands.press_ups`, `Stands.press_downs`).
-/
import PageShell.Proofs.Page.Candidates
import PageShell.Proofs.Page.Histories

namespace PageShell

namespace History

/-! ## The counter -/

/-- how many steps back the cursor is -/
def position (h : History) : Nat :=
  match h.cursor with
  | none => 0
  | some i => h.lines.length - i

@[simp] theorem position_none (lines : List String) : position ⟨lines, none⟩ = 0 := rfl

@[simp] theorem position_some (lines : List String) (i : Nat) : position ⟨lines, some i⟩ = lines.length - i := rfl

/-- a counter from 0 to `size` goes up by a negative direction, and down by a positive one -/
def counted (size pos : Nat) (direction : Int) : Nat :=
  if direction < 0 then min (pos + 1) size
  else if 0 < direction then pos - 1
  else pos

theorem counted_up (size pos : Nat) : counted size pos (-1) = min (pos + 1) size := rfl

theorem counted_down (size pos : Nat) : counted size pos 1 = pos - 1 := rfl

/-- the line that is some steps back; 0 steps back there is none -/
def stepsBack? (lines : List String) : Nat → Option String
  | 0 => none
  | k + 1 => lines.reverse[k]?

theorem stepsBack?_sub {lines : List String} {i : Nat} (hi : i < lines.length) :
    stepsBack? lines (lines.length - i) = some lines[i] := by
  obtain ⟨k, hk⟩ : ∃ k, lines.length - i = k + 1 := ⟨lines.length - i - 1, by omega⟩
  have hplace : lines.length - 1 - k = i := by omega
  rw [hk, stepsBack?, List.getElem?_reverse (by omega), hplace, List.getElem?_eq_getElem hi]

theorem stepsBack?_one (lines : List String) : stepsBack? lines 1 = lines.getLast? := by
  rw [stepsBack?, ← List.head?_eq_getElem?, List.head?_reverse]

theorem stepsBack?_eq_none_iff {lines : List String} {k : Nat} (hk : k ≤ lines.length) :
    stepsBack? lines k = none ↔ k = 0 := by
  cases k with
  | zero => simp [stepsBack?]
  | succ k =>
    have hlt : k < lines.reverse.length := by
      rw [List.length_reverse]
      omega
    simp [stepsBack?, List.getElem?_eq_getElem hlt]

theorem counted_le {size pos : Nat} (hpos : pos ≤ size) (direction : Int) : counted size pos direction ≤ size := by
  unfold counted
  split_ifs <;> omega

/-! ## One call -/

/-- a history holds these lines, and is so many steps back in them -/
structure Stands (h : History) (lines : List String) (pos : Nat) : Prop where
  lines_eq : h.lines = lines
  cursor_lt : ∀ i, h.cursor = some i → i < lines.length
  position_eq : h.position = pos

variable {h : History} {lines : List String} {pos : Nat}

theorem Stands.le (hs : h.Stands lines pos) : pos ≤ lines.length := by
  rw [← hs.position_eq, ← hs.lines_eq]
  unfold History.position
  split
  · exact Nat.zero_le _
  · exact Nat.sub_le _ _

theorem stands_add (capacity : Nat) (h : History) (line : String) :
    (h.add capacity line).Stands (keep capacity h.lines line) 0 where
  lines_eq := rfl
  cursor_lt _ hi := nomatch hi
  position_eq := rfl

/-- where the cursor goes is a step of the counter -/
theorem position_moved {lines : List String} (hsome : lines ≠ []) {cursor : Option Nat}
    (hcursor : ∀ i, cursor = some i → i < lines.length) (direction : Int) :
    position ⟨lines, moved lines.length cursor direction⟩ = counted lines.length (position ⟨lines, cursor⟩) direction := by
  have hsize : 0 < lines.length := List.length_pos_of_ne_nil hsome
  unfold counted
  cases cursor with
  | none =>
    simp only [moved, position_none]
    split_ifs
    · rw [position_some]
      omega
    · rfl
    · rfl
  | some i =>
    have hi : i < lines.length := hcursor i rfl
    simp only [moved, position_some]
    split_ifs
    · rw [position_some]
      omega
    · rw [position_some]
      omega
    · rw [position_none]
      omega
    · rw [position_some]

theorem position_retrieve (hcursor : ∀ i, h.cursor = some i → i < h.lines.length) (direction : Int) :
    (h.retrieve direction).2.position = counted h.lines.length h.position direction := by
  unfold History.retrieve
  split_ifs with hempty
  · have hnil : h.lines = [] := List.isEmpty_iff.1 hempty
    have hnone : h.cursor = none := by
      rw [Option.eq_none_iff_forall_ne_some]
      intro i hi
      have hlt := hcursor i hi
      rw [hnil] at hlt
      cases hlt
    simp [position, counted, hnil, hnone]
  · exact position_moved (by simpa using hempty) hcursor direction

/-- a call moves the counter by a step, and retrieves the line at its new count -/
theorem Stands.retrieve (hs : h.Stands lines pos) (direction : Int) :
    (h.retrieve direction).2.Stands lines (counted lines.length pos direction) ∧
      (h.retrieve direction).1 = stepsBack? lines (counted lines.length pos direction) := by
  obtain ⟨rfl, hcursor, rfl⟩ := hs
  have hcount := position_retrieve hcursor direction
  obtain ⟨hnone, hsome⟩ := retrieve_spec hcursor direction
  refine ⟨⟨lines_retrieve h direction, fun i hi => (hsome i hi).1, hcount⟩, ?_⟩
  rw [← hcount]
  cases hplace : (h.retrieve direction).2.cursor with
  | none =>
    rw [hnone hplace, position, hplace]
    rfl
  | some i =>
    obtain ⟨hi, hline⟩ := hsome i hplace
    rw [hline, position, hplace, lines_retrieve]
    exact (stepsBack?_sub hi).symm

/-! ## Calls one after another -/

/-- the directions of the calls since a line was last entered -/
def directions (calls : List Call) : List Int :=
  calls.foldl (fun directions c =>
    match c with
    | .add _ => []
    | .retrieve direction => directions ++ [direction]) []

/-- a history counts the directions since a line was last entered -/
theorem stands_after_calls (capacity : Nat) (calls : List Call) :
    let h := calls.foldl (call capacity) empty
    h.Stands h.lines ((directions calls).foldl (counted h.lines.length) 0) := by
  induction calls using List.reverseRecOn with
  | nil => exact ⟨rfl, nofun, rfl⟩
  | append_singleton calls c ih =>
    dsimp only at ih ⊢
    rw [List.foldl_concat]
    generalize hh : calls.foldl (call capacity) empty = h at ih
    cases c with
    | add line =>
      have hdirections : directions (calls ++ [.add line]) = [] := by simp [directions]
      rw [hdirections]
      exact stands_add capacity h line
    | retrieve direction =>
      have hdirections : directions (calls ++ [.retrieve direction]) = directions calls ++ [direction] := by
        simp [directions]
      have hlines : (h.call capacity (.retrieve direction)).lines = h.lines := lines_retrieve h direction
      rw [hdirections, hlines, List.foldl_concat]
      exact (ih.retrieve direction).1

end History

/-! ## Keys -/

namespace Field

open History

variable {t : Terminal} {lines : List String} {pos : Nat}

/-- the key goes one line further back, if there is one -/
theorem press_up (hs : t.history.Stands lines pos) (hroom : pos < lines.length) (f : Field)
    (submitted : Option String) :
    ∃ t', f.handle Page.host (.key .up) (t, submitted) =
        (⟨(stepsBack? lines (pos + 1)).getD "", .idle⟩, t', submitted) ∧ t'.history.Stands lines (pos + 1) := by
  obtain ⟨hstands, hline⟩ := hs.retrieve (-1)
  rw [counted_up, Nat.min_eq_left hroom] at hstands hline
  have hsome : stepsBack? lines (pos + 1) ≠ none := by
    rw [Ne, stepsBack?_eq_none_iff hroom]
    exact Nat.succ_ne_zero pos
  obtain ⟨line, hback⟩ := Option.ne_none_iff_exists'.1 hsome
  refine ⟨(t.retrieve (-1)).2, ?_, hstands⟩
  have hretrieved : (t.retrieve (-1)).1 = some line := hline.trans hback
  rw [hback]
  simp [handle, press, Page.host, hretrieved]

/-- the other key goes one line back again, behind the newest to an empty line -/
theorem press_down (hs : t.history.Stands lines pos) (f : Field) (submitted : Option String) :
    ∃ t', f.handle Page.host (.key .down) (t, submitted) =
        (⟨(stepsBack? lines (pos - 1)).getD "", .idle⟩, t', submitted) ∧ t'.history.Stands lines (pos - 1) := by
  obtain ⟨hstands, hline⟩ := hs.retrieve 1
  rw [counted_down] at hstands hline
  refine ⟨(t.retrieve 1).2, ?_, hstands⟩
  have hretrieved : (t.retrieve 1).1 = stepsBack? lines (pos - 1) := hline
  simp [handle, press, Page.host, hretrieved]

theorem press_ups (hs : t.history.Stands lines pos) {k : Nat} (hroom : pos + k ≤ lines.length) (f : Field)
    (submitted : Option String) :
    let r := handleAll Page.host (List.replicate k (.key .up)) f (t, submitted)
    r.2.1.history.Stands lines (pos + k) ∧ (0 < k → r.1.value = (stepsBack? lines (pos + k)).getD "") := by
  induction k with
  | zero => exact ⟨hs, fun hk => absurd hk (Nat.lt_irrefl 0)⟩
  | succ k ih =>
    obtain ⟨hstands, -⟩ := ih (by omega)
    rw [List.replicate_succ', handleAll_append]
    generalize handleAll Page.host (List.replicate k (.key .up)) f (t, submitted) = r at hstands
    obtain ⟨t', hpressed, hnext⟩ := press_up hstands hroom r.1 r.2.2
    have hlast : handleAll Page.host [.key .up] r.1 r.2 =
        (⟨(stepsBack? lines (pos + k + 1)).getD "", .idle⟩, t', r.2.2) := hpressed
    rw [hlast]
    exact ⟨hnext, fun _ => rfl⟩

theorem press_downs (hs : t.history.Stands lines pos) (i : Nat) (f : Field) (submitted : Option String) :
    let r := handleAll Page.host (List.replicate i (.key .down)) f (t, submitted)
    r.2.1.history.Stands lines (pos - i) ∧ (0 < i → r.1.value = (stepsBack? lines (pos - i)).getD "") := by
  induction i with
  | zero => exact ⟨hs, fun hi => absurd hi (Nat.lt_irrefl 0)⟩
  | succ i ih =>
    obtain ⟨hstands, -⟩ := ih
    rw [List.replicate_succ', handleAll_append]
    generalize handleAll Page.host (List.replicate i (.key .down)) f (t, submitted) = r at hstands
    obtain ⟨t', hpressed, hnext⟩ := press_down hstands r.1 r.2.2
    have hlast : handleAll Page.host [.key .down] r.1 r.2 =
        (⟨(stepsBack? lines (pos - i - 1)).getD "", .idle⟩, t', r.2.2) := hpressed
    rw [hlast, ← Nat.sub_sub]
    exact ⟨hnext, fun _ => rfl⟩

end Field

/--
**Recalling is counting.** From the start of a terminal, enter any lines and move the cursor in any way, and count the
directions since a line was last entered: a negative one up, to the number of lines at most, a positive one down, to 0 at
least. The next call retrieves the line that is as many steps back as the count is then, and none just if it is 0. In the
field, keys up to some line and then keys down show the lines on the way back that they showed on the way there, and from
a count of 0 as many keys down as up lead to an empty line.
-/
theorem recalling_is_counting (calls : List History.Call) :
    let t := Terminal.start.callAll calls
    let lines := t.history.lines
    let pos := (History.directions calls).foldl (History.counted lines.length) 0
    pos ≤ lines.length ∧
      (∀ direction, (t.retrieve direction).1 = History.stepsBack? lines (History.counted lines.length pos direction) ∧
        ((t.retrieve direction).1 = none ↔ History.counted lines.length pos direction = 0)) ∧
      ∀ f k i, 0 < k → i ≤ k → pos + k ≤ lines.length →
        let events := List.replicate k (.key .up) ++ List.replicate i (.key .down)
        (Field.handleAll Page.host events f (t, none)).1.value = (History.stepsBack? lines (pos + (k - i))).getD "" := by
  intro t lines pos
  have hs : t.history.Stands lines pos := by
    have hcalls : t.history = calls.foldl (History.call Site.historyCapacity) .empty := Terminal.history_callAll ..
    simp only [lines, pos, hcalls]
    exact History.stands_after_calls Site.historyCapacity calls
  refine ⟨hs.le, ?_, ?_⟩
  · intro direction
    have hline : (t.retrieve direction).1 = History.stepsBack? lines (History.counted lines.length pos direction) :=
      (hs.retrieve direction).2
    rw [hline]
    exact ⟨rfl, History.stepsBack?_eq_none_iff (History.counted_le hs.le direction)⟩
  · intro f k i hk hi hroom events
    obtain ⟨hstands, hvalue⟩ := Field.press_ups hs hroom f none
    rw [Field.handleAll_append]
    generalize Field.handleAll Page.host (List.replicate k (.key .up)) f (t, none) = r at hstands hvalue
    rcases Nat.eq_zero_or_pos i with rfl | hpos
    · exact hvalue hk
    · have hback : pos + k - i = pos + (k - i) := by omega
      rw [← hback]
      exact (Field.press_downs hstands i r.1 r.2.2).2 hpos

/-- three lines back, and the same way forth: a blank line has been entered last, so counting begins anew -/
theorem recalling_is_counting_thrice :
    let calls := [.add "ls", .retrieve (-1), .add "pwd", .add "ls", .retrieve (-1), .retrieve (-1), .add " "]
    let t := Terminal.start.callAll calls
    let shown := fun i =>
      (Field.handleAll Page.host (List.replicate 3 (.key .up) ++ List.replicate i (.key .down)) .blank (t, none)).1.value
    t.history.lines = ["ls", "pwd", "ls"] ∧ History.directions calls = [] ∧
      shown 0 = "ls" ∧ shown 1 = "pwd" ∧ shown 2 = "ls" ∧ shown 3 = "" := by
  intro calls t shown
  have hlines : t.history.lines = ["ls", "pwd", "ls"] := by decide +kernel
  have hpos : History.directions calls = [] := rfl
  obtain ⟨-, -, hkeys⟩ := recalling_is_counting calls
  have hshown : ∀ i ≤ 3, shown i = (History.stepsBack? ["ls", "pwd", "ls"] (3 - i)).getD "" := by
    intro i hi
    have hroom : 0 + 3 ≤ t.history.lines.length := by
      rw [hlines]
      decide
    have hvalue := hkeys .blank 3 i (by decide) hi hroom
    rw [hpos, List.foldl_nil, Nat.zero_add] at hvalue
    rw [← hlines]
    exact hvalue
  exact ⟨hlines, hpos, hshown 0 (by decide), hshown 1 (by decide), hshown 2 (by decide), hshown 3 (by decide)⟩

end PageShell
