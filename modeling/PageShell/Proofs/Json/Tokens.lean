/-
Reading the strings and the numbers of a JSON text.

Every text of a string is read, one character of the string after the other, up to its closing quote
(`foldlM_charsText`). Every text of a number is read into a number that may end there (`reads_number`), and then the
first blank, comma or bracket behind it does end it (`step_of_complete`).
-/
import Mathlib.Data.List.Basic
import PageShell.Json.Reader
import PageShell.Proofs.Json.Grammar

namespace PageShell.Json

theorem isBlank_iff {c : Char} : isBlank c = true ↔ c ∈ [' ', '\t', '\n', '\r'] := by
  simp [isBlank, or_assoc]

/-! ## Strings -/

/-- the string goes on -/
def StringStep.more? : StringStep → Option StringLiteral
  | .more s => some s
  | .closed _ | .malformed => none

namespace StringLiteral

/-- one character of a string that goes on behind it -/
def advance? (s : StringLiteral) (c : Char) : Option StringLiteral :=
  (s.step c).more?

theorem hexDigit?_of_digit {c : Char} {n : Nat} (h : HexDigit c n) : hexDigit? c = some n ∧ c.utf8Size = 1 := by
  have hall : ∀ digits ∈ ["0123456789abcdef".toList, "0123456789ABCDEF".toList], ∀ n < 16,
      hexDigit? (digits[n]?.getD ' ') = some n ∧ (digits[n]?.getD ' ').utf8Size = 1 := by decide
  have hdigit : ∀ digits ∈ ["0123456789abcdef".toList, "0123456789ABCDEF".toList], digits[n]? = some c →
      n < 16 → hexDigit? c = some n ∧ c.utf8Size = 1 := by
    intro digits hdigits hc hn
    have hread := hall digits hdigits n hn
    rwa [hc] at hread
  rcases h with h | h
  · exact hdigit _ (by simp) h (List.getElem?_eq_some_iff.1 h).1
  · exact hdigit _ (by simp) h (List.getElem?_eq_some_iff.1 h).1

/-- four hexadecimal digits are read as the unit that they write -/
theorem foldlM_unitText {n : Nat} {t : List Char} (h : UnitText n t) (high : Option Nat) (chars : List Char) :
    t.foldlM advance? ⟨.hex high [], chars⟩ =
      (match high with
        | none => pushUnit ⟨.plain, chars⟩ n
        | some m => pushPair ⟨.plain, chars⟩ m n).more? := by
  obtain ⟨ha, hb, hc, hd⟩ := h
  obtain ⟨ha, ha'⟩ := hexDigit?_of_digit ha
  obtain ⟨hb, hb'⟩ := hexDigit?_of_digit hb
  obtain ⟨hc, hc'⟩ := hexDigit?_of_digit hc
  obtain ⟨hd, hd'⟩ := hexDigit?_of_digit hd
  cases high with
  | none =>
    simp [advance?, step, StringStep.more?, byteLength, hexValue?, ha, hb, hc, hd, ha', hb', hc', hd', pushUnit, push]
  | some m =>
    simp [advance?, step, StringStep.more?, byteLength, hexValue?, ha, hb, hc, hd, ha', hb', hc', hd', pushPair, push]

theorem toNat_not_surrogate (c : Char) : ¬(0xD800 ≤ c.toNat ∧ c.toNat ≤ 0xDFFF) := by
  rcases c.valid with h | h
  · have hlt : c.toNat < 0xD800 := h
    omega
  · have hgt : 0xDFFF < c.toNat := h.1
    omega

/-- every text of a character is read as that character -/
theorem foldlM_charText {c : Char} {t : List Char} (h : CharText c t) (chars : List Char) :
    t.foldlM advance? ⟨.plain, chars⟩ = some ⟨.plain, c :: chars⟩ := by
  cases h with
  | plain hquote hbackslash hcontrol =>
    have hlt : ¬c.toNat < 0x20 := by omega
    simp [advance?, step, hquote, hbackslash, hlt, push, StringStep.more?]
  | short h =>
    simp only [shortEscapes, List.mem_cons, Prod.mk.injEq, List.not_mem_nil, or_false] at h
    rcases h with ⟨rfl, rfl⟩ | ⟨rfl, rfl⟩ | ⟨rfl, rfl⟩ | ⟨rfl, rfl⟩ | ⟨rfl, rfl⟩ | ⟨rfl, rfl⟩ | ⟨rfl, rfl⟩ |
      ⟨rfl, rfl⟩ <;> rfl
  | @unit t h =>
    have hopen : ('\\' :: 'u' :: t).foldlM advance? ⟨.plain, chars⟩ = t.foldlM advance? ⟨.hex none [], chars⟩ := rfl
    have hlow : ¬(0xDC00 ≤ c.toNat ∧ c.toNat ≤ 0xDFFF) := by
      have := toNat_not_surrogate c
      omega
    have hhigh : ¬(0xD800 ≤ c.toNat ∧ c.toNat ≤ 0xDBFF) := by
      have := toNat_not_surrogate c
      omega
    rw [hopen, foldlM_unitText h]
    simp only [pushUnit, hlow, hhigh, if_false, push, StringStep.more?, Char.ofNat_toNat]
  | @pair high low h hhigh hlow =>
    have hmax : c.toNat < 0x110000 := by
      rcases c.valid with h' | h'
      · exact Nat.lt_trans h' (by decide)
      · exact h'.2
    have hopen : ('\\' :: 'u' :: high).foldlM advance? ⟨.plain, chars⟩ =
        high.foldlM advance? ⟨.hex none [], chars⟩ := rfl
    have hnext : ∀ m, ('\\' :: 'u' :: low).foldlM advance? ⟨.pairBackslash m, chars⟩ =
        low.foldlM advance? ⟨.hex (some m) [], chars⟩ := fun _ => rfl
    have hsum : 0x10000 + (0xD800 + (c.toNat - 0x10000) / 0x400 - 0xD800) * 0x400 +
        (0xDC00 + (c.toNat - 0x10000) % 0x400 - 0xDC00) = c.toNat := by omega
    rw [List.foldlM_append, hopen, foldlM_unitText hhigh]
    simp only [pushUnit]
    rw [if_neg (by omega), if_pos (by omega)]
    simp only [StringStep.more?, Option.bind_eq_bind, Option.bind_some]
    rw [hnext, foldlM_unitText hlow]
    simp only [pushPair]
    rw [if_pos (by omega), hsum, Char.ofNat_toNat]
    rfl

theorem foldlM_charsText {cs t : List Char} (h : CharsText cs t) (chars : List Char) :
    t.foldlM advance? ⟨.plain, chars⟩ = some ⟨.plain, cs.reverse ++ chars⟩ := by
  induction h generalizing chars with
  | nil => rfl
  | @cons c cs t ts hc hcs ih =>
    rw [List.foldlM_append, foldlM_charText hc]
    simp only [Option.bind_eq_bind, Option.bind_some]
    rw [ih, List.reverse_cons, List.append_assoc]
    rfl

/-- a string ends at its closing quote -/
theorem step_quote (chars : List Char) : step ⟨.plain, chars⟩ '"' = .closed (String.ofList chars.reverse) := rfl

end StringLiteral

/-! ## Numbers -/

/-- the number goes on -/
def NumeralStep.more? : NumeralStep → Option Numeral
  | .more n => some n
  | .ended | .malformed => none

namespace Numeral

/-- one character of a number that goes on behind it -/
def advance? (n : Numeral) (c : Char) : Option Numeral :=
  (n.step c).more?

@[simp] theorem stage_pushWhole (n : Numeral) (d : Nat) : (n.pushWhole d).stage = n.stage := by
  unfold pushWhole
  dsimp only
  split <;> rfl

@[simp] theorem stage_pushFraction (n : Numeral) (d : Nat) : (n.pushFraction d).stage = n.stage := by
  unfold pushFraction
  dsimp only
  split
  · rfl
  · split <;> rfl

@[simp] theorem stage_pushExponent (n : Numeral) (d : Nat) : (n.pushExponent d).stage = n.stage := rfl

theorem digit?_of_isDigit {c : Char} (h : c.isDigit = true) : digit? c = some (c.toNat - 48) := by
  simp [digit?, h]

/-- a whole part has been read -/
def AfterWhole (n : Numeral) : Prop :=
  n.stage = .zero ∨ n.stage = .whole

/-- at least one digit of a part has been read, and more may follow -/
def InDigits (n : Numeral) : Prop :=
  n.stage = .whole ∨ n.stage = .fraction ∨ n.stage = .exponent

theorem advance_digit {n : Numeral} (hn : n.InDigits) {c : Char} (hc : c.isDigit = true) :
    ∃ m, n.advance? c = some m ∧ m.stage = n.stage := by
  rcases hn with hn | hn | hn
  · refine ⟨n.pushWhole (c.toNat - 48), ?_, stage_pushWhole ..⟩
    simp [advance?, step, hn, digit?_of_isDigit hc, NumeralStep.more?]
  · refine ⟨n.pushFraction (c.toNat - 48), ?_, stage_pushFraction ..⟩
    simp [advance?, step, hn, digit?_of_isDigit hc, NumeralStep.more?]
  · refine ⟨n.pushExponent (c.toNat - 48), ?_, stage_pushExponent ..⟩
    simp [advance?, step, hn, digit?_of_isDigit hc, NumeralStep.more?]

/-- all further digits of a part are read -/
theorem reads_digits {ds : List Char} (hds : ∀ d ∈ ds, d.isDigit = true) {n : Numeral} (hn : n.InDigits) :
    ∃ m, ds.foldlM advance? n = some m ∧ m.stage = n.stage := by
  induction ds generalizing n with
  | nil => exact ⟨n, rfl, rfl⟩
  | cons d ds ih =>
    obtain ⟨hd, hds⟩ := List.forall_mem_cons.1 hds
    obtain ⟨k, hk, hstage⟩ := advance_digit hn hd
    have hin : k.InDigits := by
      unfold InDigits
      rwa [hstage]
    obtain ⟨m, hm, hlast⟩ := ih hds hin
    refine ⟨m, ?_, hlast.trans hstage⟩
    rw [List.foldlM_cons, hk]
    exact hm

theorem digit_sub_ne_zero {d : Char} (hd : d.isDigit = true) (hzero : d ≠ '0') : d.toNat - 48 ≠ 0 := by
  intro h
  have hle : 48 ≤ d.toNat := by
    simp only [Char.isDigit, Bool.and_eq_true, decide_eq_true_eq] at hd
    exact hd.1
  have heq : d.toNat = '0'.toNat := by
    have : '0'.toNat = 48 := rfl
    omega
  exact hzero (Char.toNat_inj.1 heq)

/-- a whole part is read, whether it starts the number or stands behind a minus sign -/
theorem reads_whole {c : Char} {t : List Char} (h : WholeText (c :: t)) :
    (∃ n m, start? c = some n ∧ t.foldlM advance? n = some m ∧ m.AfterWhole) ∧
      ∀ n : Numeral, n.stage = .sign → ∃ m, (c :: t).foldlM advance? n = some m ∧ m.AfterWhole := by
  cases h with
  | zero =>
    refine ⟨⟨_, _, rfl, rfl, .inl rfl⟩, fun n hn => ⟨{ n with stage := .zero }, ?_, .inl rfl⟩⟩
    simp [advance?, step, hn, digit?, NumeralStep.more?]
  | positive hd hzero hds =>
    have hne : c ≠ '-' := by
      rintro rfl
      exact absurd hd (by decide)
    obtain ⟨k, hk⟩ := Nat.exists_eq_succ_of_ne_zero (digit_sub_ne_zero hd hzero)
    constructor
    · have hstart : start? c = some ⟨.whole, k + 1, 0, false, false, 0⟩ := by
        simp [start?, hne, digit?_of_isDigit hd, hk]
      obtain ⟨m, hm, hstage⟩ := reads_digits hds (n := ⟨.whole, k + 1, 0, false, false, 0⟩) (.inl rfl)
      exact ⟨_, m, hstart, hm, .inr hstage⟩
    · intro n hn
      have hfirst : n.advance? c = some { n with stage := .whole, significand := k + 1 } := by
        simp [advance?, step, hn, digit?_of_isDigit hd, hk, NumeralStep.more?]
      obtain ⟨m, hm, hstage⟩ :=
        reads_digits hds (n := { n with stage := .whole, significand := k + 1 }) (.inl rfl)
      refine ⟨m, ?_, .inr hstage⟩
      rw [List.foldlM_cons, hfirst]
      exact hm

theorem reads_fraction {t : List Char} (h : FractionText t) {n : Numeral} (hn : n.AfterWhole) :
    ∃ m, t.foldlM advance? n = some m ∧ (m.AfterWhole ∨ m.stage = .fraction) := by
  cases h with
  | absent => exact ⟨n, rfl, .inl hn⟩
  | @digits ds h =>
    obtain ⟨hne, hds⟩ := h
    obtain ⟨d, ds, rfl⟩ := List.exists_cons_of_ne_nil hne
    obtain ⟨hd, hds⟩ := List.forall_mem_cons.1 hds
    have hpoint : n.advance? '.' = some { n with stage := .point, full := false } := by
      rcases hn with hn | hn <;> simp [advance?, step, hn, digit?, afterWhole, NumeralStep.more?]
    have hfirst : advance? { n with stage := .point, full := false } d =
        some { pushFraction { n with stage := .point, full := false } (d.toNat - 48) with stage := .fraction } := by
      simp [advance?, step, digit?_of_isDigit hd, NumeralStep.more?]
    obtain ⟨m, hm, hstage⟩ := reads_digits hds
      (n := { pushFraction { n with stage := .point, full := false } (d.toNat - 48) with stage := .fraction })
      (.inr (.inl rfl))
    refine ⟨m, ?_, .inr hstage⟩
    rw [List.foldlM_cons, hpoint]
    simp only [Option.bind_eq_bind, Option.bind_some]
    rw [List.foldlM_cons, hfirst]
    exact hm

/-- the digits of an exponent are read behind its mark and behind its sign -/
theorem reads_exponent_digits {ds : List Char} (h : Digits ds) {n : Numeral}
    (hn : n.stage = .exponentMark ∨ n.stage = .exponentSign) :
    ∃ m, ds.foldlM advance? n = some m ∧ m.stage = .exponent := by
  obtain ⟨hne, hds⟩ := h
  obtain ⟨d, ds, rfl⟩ := List.exists_cons_of_ne_nil hne
  obtain ⟨hd, hds⟩ := List.forall_mem_cons.1 hds
  have hfirst : n.advance? d = some { n.pushExponent (d.toNat - 48) with stage := .exponent } := by
    rcases hn with hn | hn <;> simp [advance?, step, hn, digit?_of_isDigit hd, NumeralStep.more?]
  obtain ⟨m, hm, hstage⟩ :=
    reads_digits hds (n := { n.pushExponent (d.toNat - 48) with stage := .exponent }) (.inr (.inr rfl))
  refine ⟨m, ?_, hstage⟩
  rw [List.foldlM_cons, hfirst]
  exact hm

theorem reads_exponent {t : List Char} (h : ExponentText t) {n : Numeral}
    (hn : n.AfterWhole ∨ n.stage = .fraction) :
    ∃ m, t.foldlM advance? n = some m ∧ m.isComplete = true := by
  cases h with
  | absent =>
    refine ⟨n, rfl, ?_⟩
    rcases hn with (hn | hn) | hn <;> simp [isComplete, hn]
  | @digits mark sign ds hmark hsign h =>
    have hfirst : n.advance? mark = some { n with stage := .exponentMark } := by
      simp only [List.mem_cons, List.not_mem_nil, or_false] at hmark
      rcases hn with (hn | hn) | hn <;> rcases hmark with rfl | rfl <;>
        simp [advance?, step, hn, digit?, afterWhole, NumeralStep.more?]
    have hsign : ∃ k, sign.foldlM advance? { n with stage := .exponentMark } = some k ∧
        (k.stage = .exponentMark ∨ k.stage = .exponentSign) := by
      simp only [List.mem_cons, List.not_mem_nil, or_false] at hsign
      rcases hsign with rfl | rfl | rfl
      · exact ⟨_, rfl, .inl rfl⟩
      · exact ⟨_, rfl, .inr rfl⟩
      · exact ⟨_, rfl, .inr rfl⟩
    obtain ⟨k, hk, hstage⟩ := hsign
    obtain ⟨m, hm, hlast⟩ := reads_exponent_digits h hstage
    refine ⟨m, ?_, by simp [isComplete, hlast]⟩
    rw [List.foldlM_cons, hfirst]
    simp only [Option.bind_eq_bind, Option.bind_some]
    rw [List.foldlM_append, hk]
    exact hm

/-- every text of a number is read up to a place where the number may end -/
theorem reads_number {t : List Char} (h : NumberText t) :
    ∃ c rest n m, t = c :: rest ∧ start? c = some n ∧ rest.foldlM advance? n = some m ∧ m.isComplete = true := by
  obtain ⟨hsign, hwhole, hfraction, hexponent⟩ := h
  rename_i sign whole fraction exponent
  obtain ⟨c, rest, rfl⟩ : ∃ c rest, whole = c :: rest := by cases hwhole <;> exact ⟨_, _, rfl⟩
  have htail : ∀ k : Numeral, k.AfterWhole →
      ∃ m, (fraction ++ exponent).foldlM advance? k = some m ∧ m.isComplete = true := by
    intro k hk
    obtain ⟨l, hl, hafter⟩ := reads_fraction hfraction hk
    obtain ⟨m, hm, hcomplete⟩ := reads_exponent hexponent hafter
    refine ⟨m, ?_, hcomplete⟩
    rw [List.foldlM_append, hl]
    exact hm
  simp only [List.mem_cons, List.not_mem_nil, or_false] at hsign
  rcases hsign with rfl | rfl
  · obtain ⟨n, k, hn, hk, hafter⟩ := (reads_whole hwhole).1
    obtain ⟨m, hm, hcomplete⟩ := htail k hafter
    refine ⟨c, rest ++ (fraction ++ exponent), n, m, rfl, hn, ?_, hcomplete⟩
    rw [List.foldlM_append, hk]
    exact hm
  · obtain ⟨k, hk, hafter⟩ := (reads_whole hwhole).2 ⟨.sign, 0, 0, false, false, 0⟩ rfl
    obtain ⟨m, hm, hcomplete⟩ := htail k hafter
    refine ⟨'-', c :: rest ++ (fraction ++ exponent), _, m, rfl, rfl, ?_, hcomplete⟩
    rw [List.foldlM_append, hk]
    exact hm

/-- blanks, quotes, brackets and words start no number -/
theorem start?_eq_none {c : Char} (hc : c ∈ [' ', '\t', '\n', '\r', '"', '[', ']', '\x7b', 't', 'f', 'n']) :
    start? c = none := by
  simp only [List.mem_cons, List.not_mem_nil, or_false] at hc
  rcases hc with rfl | rfl | rfl | rfl | rfl | rfl | rfl | rfl | rfl | rfl | rfl <;> rfl

/-- a character that may stand behind a value ends a number that may end -/
theorem step_of_complete {n : Numeral} (hn : n.isComplete = true) {c : Char}
    (hc : c ∈ [' ', '\t', '\n', '\r', ',', ']', '\x7d']) : n.step c = .ended := by
  have hother : digit? c = none ∧ ¬c = '.' ∧ ¬(c = 'e' ∨ c = 'E') := by
    simp only [List.mem_cons, List.not_mem_nil, or_false] at hc
    rcases hc with rfl | rfl | rfl | rfl | rfl | rfl | rfl <;> decide
  obtain ⟨hdigit, hmark⟩ := hother
  cases hstage : n.stage <;> simp [isComplete, hstage] at hn <;>
    simp [step, hstage, hdigit, afterWhole, hmark]

end Numeral

end PageShell.Json
