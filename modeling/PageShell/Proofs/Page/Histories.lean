/-
Lines that were entered, after any calls.

A history keeps the newest lines of those that are not blank and differ from the line kept before them. It compares with
the newest line that it holds, and dropping the oldest ones never touches that (`getLast?_keepLast`), so it holds the end
of what a history without bound would hold. The cursor is a place in it: only moving sets one, and adding, which alone
changes the lines, takes it away (`After.call`, `history_after_calls`).
-/
import Mathlib.Data.List.Destutter
import PageShell.Page.Terminal

namespace PageShell

/-! ## Lines that differ from the one before -/

section Destutter

variable {α : Type} [DecidableEq α]

theorem destutter'_concat (a : α) (l : List α) (b : α) : (l ++ [b]).destutter' (· ≠ ·) a =
    if (l.destutter' (· ≠ ·) a).getLast? = some b then l.destutter' (· ≠ ·) a else l.destutter' (· ≠ ·) a ++ [b] := by
  induction l generalizing a with
  | nil => by_cases h : a = b <;> simp [h]
  | cons c l ih =>
    by_cases h : a = c
    · have hsame : ¬a ≠ c := not_not.2 h
      rw [List.cons_append, List.destutter'_cons_neg _ hsame, List.destutter'_cons_neg _ hsame, ih]
    · have hlast : (a :: l.destutter' (· ≠ ·) c).getLast? = (l.destutter' (· ≠ ·) c).getLast? :=
        List.getLast?_cons_of_ne_nil (List.destutter'_ne_nil l (· ≠ ·))
      rw [List.cons_append, List.destutter'_cons_pos _ h, List.destutter'_cons_pos _ h, ih, hlast, List.cons_append,
        apply_ite (List.cons a)]

/-- one more item is kept unless it equals the last one kept -/
theorem destutter_concat (l : List α) (b : α) : (l ++ [b]).destutter (· ≠ ·) =
    if (l.destutter (· ≠ ·)).getLast? = some b then l.destutter (· ≠ ·) else l.destutter (· ≠ ·) ++ [b] := by
  cases l with
  | nil => rfl
  | cons a l => exact destutter'_concat a l b

end Destutter

/-! ## Calls -/

namespace History

/-- what can be done with a history: enter a line, or move the cursor -/
inductive Call where
  | add (line : String)
  | retrieve (direction : Int)

/-- one call -/
def call (capacity : Nat) (h : History) : Call → History
  | .add line => h.add capacity line
  | .retrieve direction => (h.retrieve direction).2

/-- the lines that some calls enter, in their order -/
def entered (calls : List Call) : List String :=
  calls.filterMap fun
    | .add line => some line
    | .retrieve _ => none

/-- the lines that are not blank and differ from the line kept before them -/
def kept (lines : List String) : List String :=
  (lines.filter (!Text.isBlankText ·)).destutter (· ≠ ·)

example : kept ["ls", " ", "ls", "pwd", "", "ls"] = ["ls", "pwd", "ls"] := by decide

theorem kept_concat (lines : List String) (line : String) : kept (lines ++ [line]) =
    if Text.isBlankText line || (kept lines).getLast? == some line then kept lines else kept lines ++ [line] := by
  unfold kept
  rw [List.filter_append]
  cases hblank : Text.isBlankText line with
  | true => simp [hblank]
  | false => simp [hblank, destutter_concat]

/-- a history holds the newest of the lines that a history without bound keeps -/
theorem keep_keepLast {capacity : Nat} (h : 0 < capacity) (lines : List String) (line : String) :
    keep capacity (keepLast capacity (kept lines)) line = keepLast capacity (kept (lines ++ [line])) := by
  have hlength : (keepLast capacity (kept lines) ++ [line]).length ≤ capacity + 1 := by
    rw [List.length_append, length_keepLast, List.length_singleton]
    omega
  rw [keep, getLast?_keepLast h, kept_concat]
  split_ifs with hdrop
  · rfl
  · rw [← keepLast_append, keepLast_of_length_le hlength]

/-- what the cursor moves to is a place in the lines -/
theorem moved_lt {size : Nat} {cursor : Option Nat} (hcursor : ∀ i, cursor = some i → i < size) (hsize : 0 < size)
    {direction : Int} {i : Nat} (h : moved size cursor direction = some i) : i < size := by
  cases cursor with
  | none =>
    simp only [moved] at h
    split_ifs at h
    obtain rfl := Option.some.inj h
    omega
  | some j =>
    have hj := hcursor j rfl
    simp only [moved] at h
    split_ifs at h <;> obtain rfl := Option.some.inj h <;> omega

@[simp] theorem lines_retrieve (h : History) (direction : Int) : (h.retrieve direction).2.lines = h.lines := by
  unfold retrieve
  split_ifs <;> rfl

/-- from a place in the lines, the cursor moves to a place in the lines, and the line there is retrieved -/
theorem retrieve_spec {h : History} (hcursor : ∀ i, h.cursor = some i → i < h.lines.length) (direction : Int) :
    ((h.retrieve direction).2.cursor = none → (h.retrieve direction).1 = none) ∧
      ∀ i, (h.retrieve direction).2.cursor = some i →
        ∃ hi : i < h.lines.length, (h.retrieve direction).1 = some h.lines[i] := by
  unfold retrieve
  split_ifs with hempty
  · refine ⟨fun _ => rfl, fun i hi => ?_⟩
    have hlt := hcursor i hi
    rw [List.isEmpty_iff.1 hempty] at hlt
    cases hlt
  · have hsize : 0 < h.lines.length := List.length_pos_iff.2 (by simpa using hempty)
    dsimp only
    constructor
    · intro hnone
      rw [hnone]
      rfl
    · intro i hi
      have hlt := moved_lt hcursor hsize hi
      refine ⟨hlt, ?_⟩
      rw [hi, Option.bind_some, List.getElem?_eq_getElem hlt]

/-- what a history is after some calls, the first of which found it empty -/
structure After (capacity : Nat) (calls : List Call) (h : History) : Prop where
  lines : h.lines = keepLast capacity (kept (entered calls))
  cursor : ∀ i, h.cursor = some i → i < h.lines.length

theorem after_empty (capacity : Nat) : After capacity [] empty where
  lines := (keepLast_nil capacity).symm
  cursor _ hi := nomatch hi

/-- one more call -/
theorem After.call {capacity : Nat} {calls : List Call} {h : History} (hafter : After capacity calls h)
    (hcapacity : 0 < capacity) (c : Call) : After capacity (calls ++ [c]) (h.call capacity c) := by
  cases c with
  | add line =>
    have hentered : entered (calls ++ [.add line]) = entered calls ++ [line] := by
      simp [entered]
    refine ⟨?_, fun i hi => nomatch hi⟩
    rw [hentered, ← keep_keepLast hcapacity, ← hafter.lines]
    rfl
  | retrieve direction =>
    have hentered : entered (calls ++ [.retrieve direction]) = entered calls := by
      simp [entered]
    rw [History.call]
    refine ⟨by rw [lines_retrieve, hentered, hafter.lines], ?_⟩
    intro i hi
    obtain ⟨hlt, -⟩ := (retrieve_spec hafter.cursor direction).2 i hi
    rwa [lines_retrieve]

/-- any calls -/
theorem after_calls {capacity : Nat} (hcapacity : 0 < capacity) (calls : List Call) :
    After capacity calls (calls.foldl (call capacity) empty) := by
  induction calls using List.reverseRecOn with
  | nil => exact after_empty capacity
  | append_singleton calls c ih =>
    rw [List.foldl_concat]
    exact ih.call hcapacity c

end History

/-! ## The history of a terminal -/

namespace Terminal

/-- one call on the history of a terminal -/
def call (t : Terminal) : History.Call → Terminal
  | .add line => t.remember line
  | .retrieve direction => (t.retrieve direction).2

/-- calls on the history of a terminal, one after another -/
def callAll (t : Terminal) (calls : List History.Call) : Terminal :=
  calls.foldl call t

theorem history_callAll (t : Terminal) (calls : List History.Call) :
    (t.callAll calls).history = calls.foldl (History.call Site.historyCapacity) t.history := by
  induction calls generalizing t with
  | nil => rfl
  | cons c calls ih =>
    have hcall : (t.call c).history = t.history.call Site.historyCapacity c := by
      cases c <;> rfl
    rw [callAll, List.foldl_cons, List.foldl_cons, ← hcall]
    exact ih (t.call c)

end Terminal

/--
**The history after any calls.** From the start of a terminal, enter any lines and move the cursor in any way. The history
holds the last 100 of the lines that are not blank and differ from the line kept before them. The cursor is not set, or it
is the place of a line; wherever it is moved next, the line at its new place is retrieved, and none if it is not set then.
-/
theorem history_after_calls (calls : List History.Call) :
    let t := Terminal.start.callAll calls
    let lines := t.history.lines
    lines = keepLast 100 (History.kept (History.entered calls)) ∧
      (∀ i, t.history.cursor = some i → i < lines.length) ∧
      ∀ direction, ((t.retrieve direction).2.history.cursor = none → (t.retrieve direction).1 = none) ∧
        ∀ i, (t.retrieve direction).2.history.cursor = some i →
          ∃ hi : i < lines.length, (t.retrieve direction).1 = some lines[i] := by
  intro t lines
  have hafter : History.After Site.historyCapacity calls t.history := by
    rw [Terminal.history_callAll]
    exact History.after_calls (by decide) calls
  exact ⟨hafter.lines, hafter.cursor, fun direction => History.retrieve_spec hafter.cursor direction⟩

end PageShell
