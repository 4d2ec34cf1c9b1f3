/-
The grammar of JSON texts.

`ValueText v t` says that `t` is one of the texts of the value `v`; nothing of the reader occurs in it. A value has
many texts: a character of a string may stand for itself or be escaped, blanks may stand between any two parts, and the
members of an object are written in the order in which the value lists them. A string is a text of Unicode characters,
so the escape of a surrogate occurs in pairs only. `DocumentText` allows blanks around the value.

`depth` counts the arrays and objects that are nested in one another.
-/
import PageShell.Json.Value

namespace PageShell.Json

/-- characters that may stand between the parts of a document -/
def Blanks (ws : List Char) : Prop :=
  ∀ c ∈ ws, c ∈ [' ', '\t', '\n', '\r']

instance (ws : List Char) : Decidable (Blanks ws) := List.decidableBAll _ ws

/-! ## Strings -/

/-- `c` is the hexadecimal digit of value `n`, in lower or upper case -/
def HexDigit (c : Char) (n : Nat) : Prop :=
  "0123456789abcdef".toList[n]? = some c ∨ "0123456789ABCDEF".toList[n]? = some c

/-- four hexadecimal digits that write the number of a UTF-16 unit -/
inductive UnitText : Nat → List Char → Prop
  | digits {a b c d : Char} {i j k l : Nat} (ha : HexDigit a i) (hb : HexDigit b j) (hc : HexDigit c k)
      (hd : HexDigit d l) : UnitText (((i * 16 + j) * 16 + k) * 16 + l) [a, b, c, d]

/-- the letters that stand behind a backslash for one character -/
def shortEscapes : List (Char × Char) :=
  [('"', '"'), ('\\', '\\'), ('/', '/'), ('b', '\x08'), ('f', '\x0c'), ('n', '\n'), ('r', '\r'), ('t', '\t')]

/-- the texts of a character in a string -/
inductive CharText (c : Char) : List Char → Prop
  | plain (hquote : c ≠ '"') (hbackslash : c ≠ '\\') (hcontrol : 0x20 ≤ c.toNat) : CharText c [c]
  | short {letter : Char} (h : (letter, c) ∈ shortEscapes) : CharText c ['\\', letter]
  | unit {t : List Char} (h : UnitText c.toNat t) : CharText c ('\\' :: 'u' :: t)
  | pair {high low : List Char} (h : 0x10000 ≤ c.toNat)
      (hhigh : UnitText (0xD800 + (c.toNat - 0x10000) / 0x400) high)
      (hlow : UnitText (0xDC00 + (c.toNat - 0x10000) % 0x400) low) :
      CharText c (('\\' :: 'u' :: high) ++ ('\\' :: 'u' :: low))

inductive CharsText : List Char → List Char → Prop
  | nil : CharsText [] []
  | cons {c : Char} {cs t ts : List Char} (hc : CharText c t) (hcs : CharsText cs ts) : CharsText (c :: cs) (t ++ ts)

/-- the texts of a string -/
inductive StringText (s : String) : List Char → Prop
  | quoted {t : List Char} (h : CharsText s.toList t) : StringText s ('"' :: (t ++ ['"']))

/-- a string that holds nothing that has to be escaped can stand for itself -/
theorem StringText.plain {s : String}
    (h : (s.toList.all fun c => c != '"' && c != '\\' && 0x20 ≤ c.toNat) = true) :
    StringText s ('"' :: (s.toList ++ ['"'])) := by
  have hchars : ∀ cs : List Char, (cs.all fun c => c != '"' && c != '\\' && 0x20 ≤ c.toNat) = true →
      CharsText cs cs := by
    intro cs hcs
    induction cs with
    | nil => exact .nil
    | cons c cs ih =>
      simp only [List.all_cons, Bool.and_eq_true, bne_iff_ne, decide_eq_true_eq] at hcs
      obtain ⟨⟨⟨hquote, hbackslash⟩, hcontrol⟩, hrest⟩ := hcs
      exact .cons (.plain hquote hbackslash hcontrol) (ih hrest)
  exact .quoted (hchars s.toList h)

/-! ## Numbers -/

/-- one digit or more -/
def Digits (ds : List Char) : Prop :=
  ds ≠ [] ∧ ∀ d ∈ ds, d.isDigit = true

inductive WholeText : List Char → Prop
  | zero : WholeText ['0']
  | positive {d : Char} {ds : List Char} (hd : d.isDigit = true) (hzero : d ≠ '0')
      (hds : ∀ e ∈ ds, e.isDigit = true) : WholeText (d :: ds)

inductive FractionText : List Char → Prop
  | absent : FractionText []
  | digits {ds : List Char} (h : Digits ds) : FractionText ('.' :: ds)

inductive ExponentText : List Char → Prop
  | absent : ExponentText []
  | digits {mark : Char} {sign ds : List Char} (hmark : mark ∈ ['e', 'E']) (hsign : sign ∈ [[], ['+'], ['-']])
      (h : Digits ds) : ExponentText (mark :: (sign ++ ds))

inductive NumberText : List Char → Prop
  | parts {sign whole fraction exponent : List Char} (hsign : sign ∈ [[], ['-']]) (hwhole : WholeText whole)
      (hfraction : FractionText fraction) (hexponent : ExponentText exponent) :
      NumberText (sign ++ (whole ++ (fraction ++ exponent)))

/-! ## Values -/

mutual

/-- the texts of a value -/
inductive ValueText : Value → List Char → Prop
  | null : ValueText .null ['n', 'u', 'l', 'l']
  | true : ValueText (.bool true) ['t', 'r', 'u', 'e']
  | false : ValueText (.bool false) ['f', 'a', 'l', 's', 'e']
  | number {t : List Char} (h : NumberText t) : ValueText .number t
  | string {s : String} {t : List Char} (h : StringText s t) : ValueText (.string s) t
  | emptyArray {ws : List Char} (h : Blanks ws) : ValueText (.array []) ('[' :: (ws ++ [']']))
  | array {items : List Value} {t : List Char} (h : ItemsText items t) :
      ValueText (.array items) ('[' :: (t ++ [']']))
  | emptyObject {ws : List Char} (h : Blanks ws) : ValueText (.object []) ('\x7b' :: (ws ++ ['\x7d']))
  | object {members : List (String × Value)} {t : List Char} (h : MembersText members t) :
      ValueText (.object members) ('\x7b' :: (t ++ ['\x7d']))

/-- the texts of a value with blanks around it -/
inductive ElementText : Value → List Char → Prop
  | padded {before after t : List Char} {v : Value} (hbefore : Blanks before) (hv : ValueText v t)
      (hafter : Blanks after) : ElementText v (before ++ (t ++ after))

inductive ItemsText : List Value → List Char → Prop
  | last {v : Value} {t : List Char} (h : ElementText v t) : ItemsText [v] t
  | cons {v : Value} {vs : List Value} {t ts : List Char} (h : ElementText v t) (hs : ItemsText vs ts) :
      ItemsText (v :: vs) (t ++ ',' :: ts)

inductive MemberText : String × Value → List Char → Prop
  | named {key : String} {v : Value} {before name after t : List Char} (hbefore : Blanks before)
      (hname : StringText key name) (hafter : Blanks after) (hv : ElementText v t) :
      MemberText (key, v) (before ++ (name ++ (after ++ ':' :: t)))

inductive MembersText : List (String × Value) → List Char → Prop
  | last {p : String × Value} {t : List Char} (h : MemberText p t) : MembersText [p] t
  | cons {p : String × Value} {ps : List (String × Value)} {t ts : List Char} (h : MemberText p t)
      (hs : MembersText ps ts) : MembersText (p :: ps) (t ++ ',' :: ts)

end

theorem ElementText.bare {v : Value} {t : List Char} (h : ValueText v t) : ElementText v t := by
  have hnone : Blanks [] := by simp [Blanks]
  simpa using padded hnone h hnone

theorem MemberText.bare {key : String} {v : Value} {name t : List Char} (hname : StringText key name)
    (h : ElementText v t) : MemberText (key, v) (name ++ ':' :: t) := by
  have hnone : Blanks [] := by simp [Blanks]
  simpa using named hnone hname hnone h

/-- the texts of a document -/
def DocumentText (v : Value) (text : String) : Prop :=
  ElementText v text.toList

/-! ## Measures of a value -/

namespace Value

mutual

/-- how many arrays and objects are nested in one another -/
def depth : Value → Nat
  | .array items => itemsDepth items + 1
  | .object members => membersDepth members + 1
  | .null | .bool _ | .number | .string _ => 0

def itemsDepth : List Value → Nat
  | [] => 0
  | v :: vs => max (depth v) (itemsDepth vs)

def membersDepth : List (String × Value) → Nat
  | [] => 0
  | (_, v) :: rest => max (depth v) (membersDepth rest)

end

/-- an induction on a value has the hypothesis for each item of an array and each member of an object -/
@[elab_as_elim]
theorem induct {P : Value → Prop} (null : P .null) (bool : ∀ b, P (.bool b)) (number : P .number)
    (string : ∀ s, P (.string s)) (array : ∀ items, (∀ v ∈ items, P v) → P (.array items))
    (object : ∀ members, (∀ p ∈ members, P p.2) → P (.object members)) (v : Value) : P v :=
  Value.rec (motive_1 := P) (motive_2 := fun items => ∀ v ∈ items, P v)
    (motive_3 := fun members => ∀ p ∈ members, P p.2) (motive_4 := fun p => P p.2)
    null bool number string array object
    (by simp) (fun _ _ hv hvs => List.forall_mem_cons.2 ⟨hv, hvs⟩)
    (by simp) (fun _ _ hp hps => List.forall_mem_cons.2 ⟨hp, hps⟩) (fun _ _ hv => hv) v

/-- no number stands in a value -/
inductive NumberFree : Value → Prop
  | null : NumberFree .null
  | bool (b : Bool) : NumberFree (.bool b)
  | string (s : String) : NumberFree (.string s)
  | array {items : List Value} (h : ∀ v ∈ items, NumberFree v) : NumberFree (.array items)
  | object {members : List (String × Value)} (h : ∀ p ∈ members, NumberFree p.2) : NumberFree (.object members)

end Value

end PageShell.Json
