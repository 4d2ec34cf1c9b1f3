/-
What the references in a text stand for.

A text is read from left to right, and at a dollar sign as much is taken for a name as can be one (`scan`). What comes
out at such a place does not depend on what stands before it or behind it (`expandChars_dollar`), so two parts of a text
can be expanded apart unless the cut between them goes through a reference (`expandChars_append`). With the value of each
single reference this is all there is to expansion: no other function keeps the same laws (`expand_determined`).
-/
import Mathlib.Data.List.TakeWhile
import PageShell.Proofs.Text.Cuts
import PageShell.Session

namespace PageShell

namespace Environment

variable {env : Environment}

/-! ## Reading from left to right -/

/-- characters that a name can be made of -/
def NameText (name : List Char) : Prop :=
  ∀ c ∈ name, isNameChar c = true

/-- a name in front of this text does not go on in it -/
def Stops (text : List Char) : Prop :=
  ∀ c ∈ text.head?, isNameChar c = false

theorem Stops.append {a b : List Char} (ha : Stops a) (hb : a = [] → Stops b) : Stops (a ++ b) := by
  cases a with
  | nil => exact hb rfl
  | cons c a => exact ha

theorem stops_dropWhile (text : List Char) : Stops (text.dropWhile isNameChar) := by
  intro c hc
  have hfirst := List.head?_dropWhile_not isNameChar text
  rw [Option.mem_def.1 hc] at hfirst
  simpa using hfirst

/-- a property of all texts, by what stands at their start: another character, or a dollar sign with the longest name -/
theorem scan {P : List Char → Prop} (nil : P []) (other : ∀ c s, c ≠ '$' → P s → P (c :: s))
    (dollar : ∀ name s, NameText name → Stops s → P s → P ('$' :: (name ++ s))) (text : List Char) : P text := by
  induction h : text.length using Nat.strongRecOn generalizing text with
  | ind n ih =>
    subst h
    cases text with
    | nil => exact nil
    | cons c s =>
      by_cases hc : c = '$'
      · subst hc
        have hname : NameText (s.takeWhile isNameChar) := fun c hc => List.mem_takeWhile_imp hc
        have hlength : (s.dropWhile isNameChar).length < (('$' :: s) : List Char).length :=
          Nat.lt_succ_of_le (List.dropWhile_suffix isNameChar).length_le
        have hrest : P (s.dropWhile isNameChar) := ih _ hlength _ rfl
        have hcut := dollar _ _ hname (stops_dropWhile s) hrest
        rwa [List.takeWhile_append_dropWhile] at hcut
      · exact other c s hc (ih s.length (Nat.lt_succ_self _) s rfl)

/-- what stands for a dollar sign and the name behind it -/
def valueOf (env : Environment) (name : List Char) : List Char :=
  if name = [] then ['$'] else ((env.get? (String.ofList name)).getD "").toList

theorem NameText.not_dollar {name : List Char} (h : NameText name) : ∀ c ∈ name, (c == '$') = false := by
  intro c hc
  rw [beq_eq_false_iff_ne]
  rintro rfl
  exact absurd (h '$' hc) (by decide)

@[simp] theorem expandChars_nil (env : Environment) : env.expandChars [] = [] := rfl

/-- any other character stands for itself -/
theorem expandChars_other {c : Char} (hc : c ≠ '$') (s : List Char) :
    env.expandChars (c :: s) = c :: env.expandChars s := by
  rw [expandChars, Text.split_cons_other (by simpa using hc)]
  rfl

theorem expandPiece_append {name rest : List Char} (hname : NameText name) (hrest : Stops rest) :
    env.expandPiece (name ++ rest) = env.valueOf name ++ rest := by
  have hnone : rest.takeWhile isNameChar = [] ∧ rest.dropWhile isNameChar = rest := by
    cases rest with
    | nil => exact ⟨rfl, rfl⟩
    | cons c rest =>
      have hc : isNameChar c = false := hrest c rfl
      exact ⟨List.takeWhile_cons_of_neg (by simp [hc]), List.dropWhile_cons_of_neg (by simp [hc])⟩
  have htake : (name ++ rest).takeWhile isNameChar = name := by
    rw [List.takeWhile_append_of_pos hname, hnone.1, List.append_nil]
  have hdrop : (name ++ rest).dropWhile isNameChar = rest := by
    rw [List.dropWhile_append_of_pos hname, hnone.2]
  rw [expandPiece, htake, hdrop, valueOf]
  cases name with
  | nil => rfl
  | cons c name => rfl

/-- at a dollar sign the name counts and nothing else -/
theorem expandChars_dollar {name s : List Char} (hname : NameText name) (hs : Stops s) :
    env.expandChars ('$' :: (name ++ s)) = env.valueOf name ++ env.expandChars s := by
  have hfirst : Stops (Text.split (· == '$') s).first := by
    cases s with
    | nil => exact hs
    | cons c s =>
      by_cases hc : c = '$'
      · rw [Text.split_cons_sep (by simpa using hc)]
        intro d hd
        cases hd
      · rw [Text.split_cons_other (by simpa using hc)]
        exact hs
  have hsplit : Text.split (· == '$') ('$' :: (name ++ s)) =
      ⟨[], (name ++ (Text.split (· == '$') s).first) :: (Text.split (· == '$') s).rest⟩ := by
    rw [Text.split_cons_sep rfl, Text.split_append_of_none hname.not_dollar]
    rfl
  calc env.expandChars ('$' :: (name ++ s))
    _ = env.expandPiece (name ++ (Text.split (· == '$') s).first) ++
        (Text.split (· == '$') s).rest.flatMap env.expandPiece := by rw [expandChars, hsplit]; rfl
    _ = env.valueOf name ++ env.expandChars s := by rw [expandPiece_append hname hfirst, expandChars, List.append_assoc]

/-! ## Laws -/

/-- somewhere in a text a character of a name stands behind a dollar sign -/
def Refers (text : List Char) : Prop :=
  ∃ before c after, text = before ++ '$' :: c :: after ∧ isNameChar c = true

/-- the cut between two parts goes through a reference, or through what would be one -/
def Severs (a b : List Char) : Prop :=
  (∃ before name, a = before ++ '$' :: name ∧ NameText name) ∧ ∃ c after, b = c :: after ∧ isNameChar c = true

theorem Severs.cons {a b : List Char} (h : Severs a b) (c : Char) : Severs (c :: a) b := by
  obtain ⟨⟨before, name, rfl, hname⟩, hb⟩ := h
  exact ⟨⟨c :: before, name, rfl, hname⟩, hb⟩

theorem not_severs_of_stops {a b : List Char} (h : Stops b) : ¬Severs a b := by
  rintro ⟨-, c, after, rfl, hc⟩
  exact absurd (h c rfl) (by simp [hc])

theorem not_refers_of_other {text : List Char} (h : '$' ∉ text) : ¬Refers text := by
  rintro ⟨before, c, after, rfl, -⟩
  exact h (by simp)

theorem not_severs_of_other {a : List Char} (h : '$' ∉ a) (b : List Char) : ¬Severs a b := by
  rintro ⟨⟨before, name, rfl, -⟩, -⟩
  exact h (by simp)

/-- the part behind a name that a part begins with begins a name only if the parts sever one -/
theorem stops_append_of_not_severs {name s b : List Char} (hname : NameText name) (hs : Stops s)
    (h : ¬Severs ('$' :: (name ++ s)) b) : Stops (s ++ b) := by
  apply hs.append
  rintro rfl
  intro c hc
  rw [← Bool.not_eq_true]
  intro hnameChar
  obtain ⟨after, rfl⟩ := List.head?_eq_some_iff.1 hc
  exact h ⟨⟨[], name, by simp, hname⟩, c, after, rfl, hnameChar⟩

/-- two parts can be expanded apart unless the cut between them goes through a reference -/
theorem expandChars_append (a b : List Char) (h : ¬Severs a b) :
    env.expandChars (a ++ b) = env.expandChars a ++ env.expandChars b := by
  induction a using scan with
  | nil => rfl
  | other c s hc ih =>
    have hrest : ¬Severs s b := fun hs => h (hs.cons c)
    rw [List.cons_append, expandChars_other hc, expandChars_other hc, ih hrest, List.cons_append]
  | dollar name s hname hs ih =>
    have hrest : ¬Severs s b := by
      rintro ⟨⟨before, name', rfl, hname'⟩, hb⟩
      exact h ⟨⟨'$' :: (name ++ before), name', by simp, hname'⟩, hb⟩
    have hstops : Stops (s ++ b) := stops_append_of_not_severs hname hs h
    calc env.expandChars ('$' :: (name ++ s) ++ b)
      _ = env.expandChars ('$' :: (name ++ (s ++ b))) := by rw [List.cons_append, List.append_assoc]
      _ = env.valueOf name ++ env.expandChars (s ++ b) := expandChars_dollar hname hstops
      _ = env.valueOf name ++ (env.expandChars s ++ env.expandChars b) := by rw [ih hrest]
      _ = env.expandChars ('$' :: (name ++ s)) ++ env.expandChars b := by
        rw [expandChars_dollar hname hs, List.append_assoc]

/-- a dollar sign goes on from nothing -/
theorem expandChars_append_dollar (a s : List Char) :
    env.expandChars (a ++ '$' :: s) = env.expandChars a ++ env.expandChars ('$' :: s) := by
  apply expandChars_append
  apply not_severs_of_stops
  intro c hc
  cases hc
  decide

/-- a text without references stays as it is -/
theorem expandChars_plain (text : List Char) (h : ¬Refers text) : env.expandChars text = text := by
  induction text using scan with
  | nil => rfl
  | other c s hc ih =>
    have hrest : ¬Refers s := by
      rintro ⟨before, d, after, rfl, hd⟩
      exact h ⟨c :: before, d, after, rfl, hd⟩
    rw [expandChars_other hc, ih hrest]
  | dollar name s hname hs ih =>
    -- a dollar sign that refers to nothing has no name behind it
    cases name with
    | cons c name => exact absurd ⟨[], c, name ++ s, rfl, hname c List.mem_cons_self⟩ h
    | nil =>
      have hrest : ¬Refers s := by
        rintro ⟨before, d, after, rfl, hd⟩
        exact h ⟨'$' :: before, d, after, rfl, hd⟩
      rw [expandChars_dollar hname hs, ih hrest]
      rfl

/-- a name with a dollar sign in front of it stands for the value of the variable, whatever that looks like -/
theorem expandChars_reference {name : List Char} (hname : NameText name) :
    env.expandChars ('$' :: name) = env.valueOf name := by
  have hempty : Stops [] := by
    intro c hc
    cases hc
  have hdollar : env.expandChars ('$' :: (name ++ [])) = env.valueOf name ++ env.expandChars [] :=
    expandChars_dollar hname hempty
  rwa [List.append_nil, expandChars_nil, List.append_nil] at hdollar

/--
What is said of a function that puts the values of variables into texts: it treats two parts of a text apart unless the
cut severs a reference, it leaves a text without references alone, and each single reference gets the value of its variable.
-/
structure Expands (env : Environment) (f : String → String) : Prop where
  append : ∀ a b : String, ¬Severs a.toList b.toList → f (a ++ b) = f a ++ f b
  plain : ∀ text : String, ¬Refers text.toList → f text = text
  reference : ∀ name : String, name ≠ "" → NameText name.toList → f ("$" ++ name) = (env.get? name).getD ""

theorem expands_expand (env : Environment) : Expands env env.expand where
  append a b h := by
    rw [expand, String.toList_append, expandChars_append _ _ h, String.ofList_append]
    rfl
  plain text h := by rw [expand, expandChars_plain _ h, String.ofList_toList]
  reference name hne hname := by
    have htext : ("$" ++ name).toList = '$' :: name.toList := by simp
    rw [expand, htext, expandChars_reference hname, valueOf, if_neg (by simpa using hne), String.ofList_toList,
      String.ofList_toList]

namespace Expands

variable {f g : String → String}

theorem empty (hf : Expands env f) : f (String.ofList []) = String.ofList [] := by
  apply hf.plain
  apply not_refers_of_other
  simp

theorem other (hf : Expands env f) {c : Char} (hc : c ≠ '$') (s : List Char) :
    f (String.ofList (c :: s)) = String.ofList [c] ++ f (String.ofList s) := by
  have hother : '$' ∉ (String.ofList [c]).toList := by simpa using Ne.symm hc
  have hplain := hf.plain _ (not_refers_of_other hother)
  have hcut := hf.append _ _ (not_severs_of_other hother (String.ofList s).toList)
  rwa [hplain, ← String.ofList_append] at hcut

theorem dollar (hf : Expands env f) {name s : List Char} (hname : NameText name) (hs : Stops s) :
    f (String.ofList ('$' :: (name ++ s))) = String.ofList (env.valueOf name) ++ f (String.ofList s) := by
  have hcut : ¬Severs (String.ofList ('$' :: name)).toList (String.ofList s).toList := by
    apply not_severs_of_stops
    rwa [String.toList_ofList]
  have hvalue : f (String.ofList ('$' :: name)) = String.ofList (env.valueOf name) := by
    by_cases hne : name = []
    · subst hne
      apply hf.plain
      rintro ⟨before, c, after, htext, -⟩
      have hlength := congrArg List.length htext
      simp at hlength
      omega
    · have htext : String.ofList ('$' :: name) = "$" ++ String.ofList name := by
        rw [← String.toList_inj]
        simp
      rw [htext, hf.reference _ (by simpa using hne) (by rwa [String.toList_ofList]), valueOf, if_neg hne,
        String.ofList_toList]
  rw [← hvalue, ← hf.append _ _ hcut, ← String.ofList_append]
  rfl

/-- the laws say what becomes of a text at each step from left to right -/
theorem unique (hf : Expands env f) (hg : Expands env g) : f = g := by
  have hsame : ∀ text : List Char, f (String.ofList text) = g (String.ofList text) := by
    intro text
    induction text using scan with
    | nil => rw [hf.empty, hg.empty]
    | other c s hc ih => rw [hf.other hc, hg.other hc, ih]
    | dollar name s hname hs ih => rw [hf.dollar hname hs, hg.dollar hname hs, ih]
  funext text
  have htext := hsame text.toList
  rwa [String.ofList_toList] at htext

end Expands

/-! ## Cuts through references -/

/-- where no variable is set, a reference stands for nothing, and one that is severed leaves its second part behind -/
theorem expandChars_ne_of_severs {a b : List Char} (h : Severs a b) :
    (ofList []).expandChars (a ++ b) ≠ (ofList []).expandChars a ++ (ofList []).expandChars b := by
  obtain ⟨⟨before, name, rfl, hname⟩, c, after, rfl, hc⟩ := h
  obtain ⟨more, rest, hb, hmore, hrest⟩ : ∃ more rest, c :: after = more ++ rest ∧ NameText more ∧ Stops rest :=
    ⟨_, _, List.takeWhile_append_dropWhile.symm, fun d hd => List.mem_takeWhile_imp hd, stops_dropWhile (c :: after)⟩
  have hne : more ≠ [] := by
    rintro rfl
    rw [List.nil_append] at hb
    exact absurd (hrest c (by rw [← hb]; rfl)) (by simp [hc])
  have hboth : NameText (name ++ more) := fun d hd => (List.mem_append.1 hd).elim (hname d) (hmore d)
  have hunset : (ofList []).valueOf (name ++ more) = [] := by
    rw [valueOf, if_neg (by simp [hne])]
    rfl
  have hother : '$' ∉ more := fun hmem => absurd (hmore '$' hmem) (by decide)
  have hwhole : (ofList []).expandChars (before ++ '$' :: name ++ (more ++ rest)) =
      (ofList []).expandChars before ++ (ofList []).expandChars rest := by
    calc (ofList []).expandChars (before ++ '$' :: name ++ (more ++ rest))
      _ = (ofList []).expandChars (before ++ '$' :: (name ++ more ++ rest)) := by simp
      _ = (ofList []).expandChars before ++ ((ofList []).valueOf (name ++ more) ++ (ofList []).expandChars rest) := by
        rw [expandChars_append_dollar, expandChars_dollar hboth hrest]
      _ = (ofList []).expandChars before ++ (ofList []).expandChars rest := by rw [hunset, List.nil_append]
  have hfirst : (ofList []).expandChars (before ++ '$' :: name) =
      (ofList []).expandChars before ++ (ofList []).valueOf name := by
    rw [expandChars_append_dollar, expandChars_reference hname]
  have hsecond : (ofList []).expandChars (more ++ rest) = more ++ (ofList []).expandChars rest := by
    rw [expandChars_append _ _ (not_severs_of_other hother rest), expandChars_plain _ (not_refers_of_other hother)]
  rw [hb, hwhole, hfirst, hsecond]
  intro hsame
  have hlength := congrArg List.length hsame
  simp only [List.length_append] at hlength
  exact hne (List.eq_nil_of_length_eq_zero (by omega))

/--
**Expansion is one pass with longest names.** In every environment, expansion is the one function that treats two parts
of a text apart where no reference is severed, leaves a text without references alone, and puts the value of its variable
in the place of a single reference, or nothing if that is not set. A cut that severs a reference makes a difference in some
environment, so the first of the three laws says no less than it can.
-/
theorem expand_determined (env : Environment) :
    (∀ f : String → String, Expands env f ↔ f = env.expand) ∧
      ∀ a b : String, (∀ e : Environment, e.expand (a ++ b) = e.expand a ++ e.expand b) ↔
        ¬Severs a.toList b.toList := by
  refine ⟨fun f => ⟨fun hf => hf.unique (expands_expand env), ?_⟩, fun a b => ⟨?_, ?_⟩⟩
  · rintro rfl
    exact expands_expand env
  · intro hall hsevers
    have hsame := congrArg String.toList (hall (ofList []))
    simp only [expand, String.toList_append, String.toList_ofList] at hsame
    exact expandChars_ne_of_severs hsevers hsame
  · intro hcut e
    exact (expands_expand e).append a b hcut

end Environment

end PageShell
