/-
Cutting a text at separators.

`split` cuts at every separator and keeps all pieces, empty ones too; `Pieces.join` is its inverse
(`join_split`). `cutAfterLast` cuts once, behind the last separator, and loses nothing
(`cutAfterLast_append`). `commonStart?` is what some texts share at their start, found by counting
bytes.

All functions work on `List Char`; the wrappers on `String` stand with the types that use them.
-/

namespace PageShell.Text

/-! ## All separators -/

/-- the pieces of a text: one before the first separator, one behind each separator -/
structure Pieces where
  first : List Char
  rest : List (List Char)
  deriving DecidableEq, Repr

namespace Pieces

/-- all pieces in order; never empty -/
def toList (p : Pieces) : List (List Char) :=
  p.first :: p.rest

/-- the text with `sep` in front of every piece but the first -/
def join (sep : Char) (p : Pieces) : List Char :=
  p.first ++ p.rest.flatMap (sep :: ·)

end Pieces

/-- cut at every character that satisfies `isSep` -/
def split (isSep : Char → Bool) : List Char → Pieces
  | [] => ⟨[], []⟩
  | c :: cs =>
    let p := split isSep cs
    if isSep c then ⟨[], p.first :: p.rest⟩ else ⟨c :: p.first, p.rest⟩

/-- the non-empty pieces -/
def fields (isSep : Char → Bool) (s : List Char) : List (List Char) :=
  (split isSep s).toList.filter (!·.isEmpty)

@[simp] theorem split_nil (isSep : Char → Bool) : split isSep [] = ⟨[], []⟩ := rfl

theorem split_cons_sep {isSep : Char → Bool} {c : Char} (h : isSep c = true) (cs : List Char) :
    split isSep (c :: cs) = ⟨[], (split isSep cs).toList⟩ := by
  simp [split, h, Pieces.toList]

theorem split_cons_other {isSep : Char → Bool} {c : Char} (h : isSep c = false) (cs : List Char) :
    split isSep (c :: cs) = ⟨c :: (split isSep cs).first, (split isSep cs).rest⟩ := by
  simp [split, h]

/-- joining the pieces gives the text back -/
theorem join_split (sep : Char) (s : List Char) : (split (· == sep) s).join sep = s := by
  induction s with
  | nil => rfl
  | cons c cs ih =>
    by_cases h : c = sep
    · subst h
      rw [split_cons_sep (by simp)]
      simpa [Pieces.join, Pieces.toList] using ih
    · rw [split_cons_other (by simpa using h)]
      simpa [Pieces.join] using ih

/-- no piece holds a separator -/
theorem not_sep_of_mem_split {isSep : Char → Bool} {s piece : List Char} {c : Char}
    (hp : piece ∈ (split isSep s).toList) (hc : c ∈ piece) : isSep c = false := by
  induction s generalizing piece with
  | nil => simp_all [Pieces.toList]
  | cons d ds ih =>
    cases h : isSep d with
    | true =>
      rw [split_cons_sep h] at hp
      simp only [Pieces.toList, List.mem_cons] at hp
      rcases hp with rfl | hp
      · simp at hc
      · exact ih (by simpa [Pieces.toList] using hp) hc
    | false =>
      rw [split_cons_other h] at hp
      simp only [Pieces.toList, List.mem_cons] at hp
      rcases hp with rfl | hp
      · rcases List.mem_cons.1 hc with rfl | hc
        · exact h
        · exact ih (by simp [Pieces.toList]) hc
      · exact ih (by simp [Pieces.toList, hp]) hc

/-! ## The last separator -/

/-- what stands up to and with the last separator, and what stands behind it -/
def cutAfterLast (isSep : Char → Bool) : List Char → List Char × List Char
  | [] => ([], [])
  | c :: cs =>
    match cutAfterLast isSep cs with
    | ([], tail) => if isSep c then ([c], tail) else ([], c :: tail)
    | (d :: head, tail) => (c :: d :: head, tail)

/-- nothing is lost at the cut -/
theorem cutAfterLast_append (isSep : Char → Bool) (s : List Char) :
    (cutAfterLast isSep s).1 ++ (cutAfterLast isSep s).2 = s := by
  induction s with
  | nil => rfl
  | cons c cs ih =>
    unfold cutAfterLast
    split
    · rename_i tail h
      rw [h] at ih
      split <;> simp_all
    · rename_i d head tail h
      rw [h] at ih
      simpa using ih

/-- no separator stands behind the cut -/
theorem not_sep_of_mem_cutAfterLast {isSep : Char → Bool} {s : List Char} {x : Char}
    (hx : x ∈ (cutAfterLast isSep s).2) : isSep x = false := by
  induction s with
  | nil => simp [cutAfterLast] at hx
  | cons c cs ih =>
    unfold cutAfterLast at hx
    split at hx
    · rename_i tail h
      rw [h] at ih
      split at hx
      · exact ih hx
      · rcases List.mem_cons.1 hx with rfl | hx
        · simp_all
        · exact ih hx
    · rename_i d head tail h
      rw [h] at ih
      exact ih hx

/-! ## Starts -/

/-- how many bytes a text takes in UTF-8 -/
def byteLength : List Char → Nat
  | [] => 0
  | c :: cs => c.utf8Size + byteLength cs

/-- the characters of a text that begins at a byte offset, each behind its own offset -/
def charOffsets (offset : Nat) : List Char → List (Nat × Char)
  | [] => []
  | c :: cs => (offset, c) :: charOffsets (offset + c.utf8Size) cs

/-- the byte offset up to which another text shares the first `bound` bytes of `first` -/
def sharedBytes (first : List Char) (bound : Nat) (s : List Char) : Nat :=
  let shared := ((charOffsets 0 first).zip s).takeWhile fun p => p.1.1 < bound && p.1.2 == p.2
  (shared.map fun p => p.1.1 + p.1.2.utf8Size).getLast?.getD 0

/-- the first `bytes` bytes of a text; none if that is not where a character ends -/
def takeBytes? (bytes : Nat) : List Char → Option (List Char)
  | [] => if bytes = 0 then some [] else none
  | c :: cs =>
    if bytes = 0 then some []
    else if c.utf8Size ≤ bytes then (takeBytes? (bytes - c.utf8Size) cs).map (c :: ·)
    else none

/-- what all texts of a list start with: as many bytes of the first one as each of the others leaves of those that the
texts before it have left; none if there is no such cut -/
def commonStart? : List (List Char) → Option (List Char)
  | [] => some []
  | first :: rest => takeBytes? (rest.foldl (sharedBytes first) (byteLength first)) first

/-- what follows `start` in a text that begins with it -/
def dropStart? : (start text : List Char) → Option (List Char)
  | [], text => some text
  | a :: as, b :: bs => if a = b then dropStart? as bs else none
  | _ :: _, [] => none

theorem dropStart?_eq_some_iff {start text rest : List Char} :
    dropStart? start text = some rest ↔ text = start ++ rest := by
  induction start generalizing text with
  | nil => simp [dropStart?, eq_comm]
  | cons a as ih =>
    cases text with
    | nil => simp [dropStart?]
    | cons b bs =>
      by_cases h : a = b
      · subst h
        simp [dropStart?, ih]
      · simp [dropStart?, h, Ne.symm h]

end PageShell.Text
