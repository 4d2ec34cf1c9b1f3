/-
Reading base64 back.

`decode_encode`: any bytes, written in groups of three with padding at the end, are read back. `written` is the same
text as a string; its characters are ASCII, so its bytes are the symbols (`bytes_written`).
-/
import Mathlib.Data.List.Basic
import PageShell.Base64

namespace PageShell.Base64

theorem symbol_ne_pad {n : Nat} (h : n < 64) : symbol n ≠ pad := by
  intro heq
  have hvalue := value?_symbol n h
  rw [heq] at hvalue
  cases hvalue

theorem valueAt_symbol (offset : Nat) {n : Nat} (h : n < 64) : valueAt offset (symbol n) = .ok n := by
  simp only [valueAt, value?_symbol n h]

/-! ## Groups -/

theorem lastValues_symbol (offset : Nat) (values : List Nat) {n : Nat} (h : n < 64) (rest : List UInt8) :
    lastValues offset values none (symbol n :: rest) = lastValues (offset + 1) (values ++ [n]) none rest := by
  rw [lastValues, if_neg (symbol_ne_pad h)]
  simp only [valueAt_symbol offset h]
  rfl

theorem lastValues_pad (offset : Nat) {values : List Nat} (h : 2 ≤ values.length) (firstPad : Option Nat)
    (rest : List UInt8) :
    lastValues offset values firstPad (pad :: rest) =
      lastValues (offset + 1) values (some (firstPad.getD offset)) rest := by
  rw [lastValues.eq_def]
  exact (if_pos rfl).trans (if_neg (by omega))

/-- the first of three bytes is in the first two symbols -/
theorem join_first (a : UInt8) {low : Nat} (h : low < 16) :
    UInt8.ofNat (a.toNat / 4 * 4 + (a.toNat % 4 * 16 + low) / 16) = a := by
  have hsum : a.toNat / 4 * 4 + (a.toNat % 4 * 16 + low) / 16 = a.toNat := by omega
  rw [hsum, UInt8.ofNat_toNat]

/-- the second of three bytes is in the second and the third symbol -/
theorem join_second (a b : UInt8) {low : Nat} (h : low < 4) :
    UInt8.ofNat ((a.toNat % 4 * 16 + b.toNat / 16) % 16 * 16 + (b.toNat % 16 * 4 + low) / 4) = b := by
  have hlt := b.toNat_lt
  have hsum : (a.toNat % 4 * 16 + b.toNat / 16) % 16 * 16 + (b.toNat % 16 * 4 + low) / 4 = b.toNat := by omega
  rw [hsum, UInt8.ofNat_toNat]

/-- the third of three bytes is in the third and the last symbol -/
theorem join_third (b c : UInt8) :
    UInt8.ofNat ((b.toNat % 16 * 4 + c.toNat / 64) % 4 * 64 + c.toNat % 64) = c := by
  have hlt := c.toNat_lt
  have hsum : (b.toNat % 16 * 4 + c.toNat / 64) % 4 * 64 + c.toNat % 64 = c.toNat := by omega
  rw [hsum, UInt8.ofNat_toNat]

theorem joinFour_encode (a b c : UInt8) :
    joinFour (a.toNat / 4) (a.toNat % 4 * 16 + b.toNat / 16) (b.toNat % 16 * 4 + c.toNat / 64) (c.toNat % 64) =
      [a, b, c] := by
  have hb := b.toNat_lt
  have hc := c.toNat_lt
  rw [joinFour, join_first a (by omega), join_second a b (by omega), join_third b c]

theorem decodeLast_two {offset p q : Nat} {group : List UInt8} (h : lastValues offset [] none group = .ok [p, q])
    (hlength : group.length = 4) (hspare : q % 16 = 0) :
    decodeLast offset group = .ok [UInt8.ofNat (p * 4 + q / 16)] := by
  unfold decodeLast
  rw [h]
  exact (if_neg (fun hne => hne hlength)).trans (if_neg (fun hne => hne hspare))

theorem decodeLast_three {offset p q r : Nat} {group : List UInt8}
    (h : lastValues offset [] none group = .ok [p, q, r]) (hlength : group.length = 4) (hspare : r % 4 = 0) :
    decodeLast offset group = .ok [UInt8.ofNat (p * 4 + q / 16), UInt8.ofNat (q % 16 * 16 + r / 4)] := by
  unfold decodeLast
  rw [h]
  exact (if_neg (fun hne => hne hlength)).trans (if_neg (fun hne => hne hspare))

theorem decodeLast_four {offset p q r s : Nat} {group : List UInt8}
    (h : lastValues offset [] none group = .ok [p, q, r, s]) :
    decodeLast offset group = .ok (joinFour p q r s) := by
  unfold decodeLast
  rw [h]
  rfl

/-- what is written for at most three bytes is read as the last group -/
theorem decodeLast_encode (offset : Nat) : ∀ bytes : List UInt8, bytes.length ≤ 3 →
    decodeLast offset (encode bytes) = .ok bytes
  | [], _ => rfl
  | [a], _ => by
    have ha := a.toNat_lt
    have hvalues : lastValues offset [] none (encode [a]) = .ok [a.toNat / 4, a.toNat % 4 * 16] := by
      rw [encode, lastValues_symbol _ _ (by omega), lastValues_symbol _ _ (by omega), lastValues_pad _ (by simp),
        lastValues_pad _ (by simp)]
      rfl
    have hfirst : UInt8.ofNat (a.toNat / 4 * 4 + a.toNat % 4 * 16 / 16) = a :=
      @join_first a 0 (by omega)
    rw [decodeLast_two hvalues rfl (by omega), hfirst]
  | [a, b], _ => by
    have ha := a.toNat_lt
    have hb := b.toNat_lt
    have hvalues : lastValues offset [] none (encode [a, b]) =
        .ok [a.toNat / 4, a.toNat % 4 * 16 + b.toNat / 16, b.toNat % 16 * 4] := by
      rw [encode, lastValues_symbol _ _ (by omega), lastValues_symbol _ _ (by omega),
        lastValues_symbol _ _ (by omega), lastValues_pad _ (by simp)]
      rfl
    have hsecond : UInt8.ofNat ((a.toNat % 4 * 16 + b.toNat / 16) % 16 * 16 + b.toNat % 16 * 4 / 4) = b :=
      @join_second a b 0 (by omega)
    rw [decodeLast_three hvalues rfl (by omega), join_first a (by omega), hsecond]
  | [a, b, c], _ => by
    have ha := a.toNat_lt
    have hb := b.toNat_lt
    have hc := c.toNat_lt
    have hvalues : lastValues offset [] none (encode [a, b, c]) = .ok [a.toNat / 4,
        a.toNat % 4 * 16 + b.toNat / 16, b.toNat % 16 * 4 + c.toNat / 64, c.toNat % 64] := by
      rw [encode, lastValues_symbol _ _ (by omega), lastValues_symbol _ _ (by omega),
        lastValues_symbol _ _ (by omega), lastValues_symbol _ _ (by omega)]
      rfl
    rw [decodeLast_four hvalues, joinFour_encode]
  | _ :: _ :: _ :: _ :: _, hlength => by
    simp only [List.length_cons] at hlength
    omega

theorem encode_ne_nil {bytes : List UInt8} (h : bytes ≠ []) : encode bytes ≠ [] := by
  match bytes with
  | [] => exact absurd rfl h
  | [_] => simp [encode]
  | [_, _] => simp [encode]
  | _ :: _ :: _ :: _ => simp [encode]

/-- groups of three bytes are read one after the other -/
theorem decodeGroups_encode (offset : Nat) (bytes : List UInt8) : decodeGroups offset (encode bytes) = .ok bytes := by
  induction bytes using encode.induct generalizing offset with
  | case1 => rfl
  | case2 a => exact decodeLast_encode offset [a] (by simp)
  | case3 a b => exact decodeLast_encode offset [a, b] (by simp)
  | case4 a b c rest ih =>
    by_cases hrest : rest = []
    · subst hrest
      exact decodeLast_encode offset [a, b, c] (by simp)
    · have ha := a.toNat_lt
      have hb := b.toNat_lt
      have hc := c.toNat_lt
      obtain ⟨e, more, heq⟩ := List.exists_cons_of_ne_nil (encode_ne_nil hrest)
      have htail : decodeGroups (offset + 4) (e :: more) = .ok rest := heq ▸ ih (offset + 4)
      rw [encode, heq, decodeGroups, valueAt_symbol _ (by omega), valueAt_symbol _ (by omega),
        valueAt_symbol _ (by omega), valueAt_symbol _ (by omega), htail]
      simp only [bind, Except.bind, joinFour_encode]
      rfl

/-! ## Texts -/

theorem length_encode (bytes : List UInt8) : (encode bytes).length % 4 = 0 := by
  induction bytes using encode.induct with
  | case1 => rfl
  | case2 a => simp [encode]
  | case3 a b => simp [encode]
  | case4 a b c rest ih =>
    simp only [encode, List.length_cons]
    omega

/-- **Bytes are read back** from what is written for them. -/
theorem decode_encode (bytes : List UInt8) : decode (encode bytes) = .ok bytes := by
  have hstray : strayByte? (encode bytes) = none := by
    have hlength := length_encode bytes
    unfold strayByte?
    split
    · exact if_neg fun h => absurd h.1 (by omega)
    · rfl
  rw [decode, hstray]
  exact decodeGroups_encode 0 bytes

/-- what is written for some bytes, as a string -/
def written (bytes : List UInt8) : String :=
  String.ofList ((encode bytes).map fun b => Char.ofNat b.toNat)

theorem symbol_lt {n : Nat} (h : n < 64) : (symbol n).toNat < 128 := by
  revert n
  decide

theorem ascii_encode (bytes : List UInt8) : ∀ b ∈ encode bytes, b.toNat < 128 := by
  have hpad : pad.toNat < 128 := by decide
  induction bytes using encode.induct with
  | case1 => simp [encode]
  | case2 a =>
    have ha := a.toNat_lt
    have hp := @symbol_lt (a.toNat / 4) (by omega)
    have hq := @symbol_lt (a.toNat % 4 * 16) (by omega)
    simp [encode, hp, hq, hpad]
  | case3 a b =>
    have ha := a.toNat_lt
    have hb := b.toNat_lt
    have hp := @symbol_lt (a.toNat / 4) (by omega)
    have hq := @symbol_lt (a.toNat % 4 * 16 + b.toNat / 16) (by omega)
    have hr := @symbol_lt (b.toNat % 16 * 4) (by omega)
    simp [encode, hp, hq, hr, hpad]
  | case4 a b c rest ih =>
    have ha := a.toNat_lt
    have hb := b.toNat_lt
    have hc := c.toNat_lt
    have hp := @symbol_lt (a.toNat / 4) (by omega)
    have hq := @symbol_lt (a.toNat % 4 * 16 + b.toNat / 16) (by omega)
    have hr := @symbol_lt (b.toNat % 16 * 4 + c.toNat / 64) (by omega)
    have hs := @symbol_lt (c.toNat % 64) (by omega)
    simpa [encode, hp, hq, hr, hs] using ih

/-- an ASCII character is one byte -/
theorem utf8EncodeChar_ascii {b : UInt8} (h : b.toNat < 128) :
    String.utf8EncodeChar (Char.ofNat b.toNat) = [b] := by
  have hall : ∀ n < 128, String.utf8EncodeChar (Char.ofNat n) = [UInt8.ofNat n] := by decide
  rw [hall b.toNat h, UInt8.ofNat_toNat]

theorem bytes_of_ascii {bytes : List UInt8} (h : ∀ b ∈ bytes, b.toNat < 128) :
    (String.ofList (bytes.map fun b => Char.ofNat b.toNat)).toByteArray.data.toList = bytes := by
  rw [String.toByteArray_ofList, List.utf8Encode, List.toList_data_toByteArray]
  induction bytes with
  | nil => rfl
  | cons b bytes ih =>
    obtain ⟨hb, hbytes⟩ := List.forall_mem_cons.1 h
    rw [List.map_cons, List.flatMap_cons, utf8EncodeChar_ascii hb, ih hbytes]
    rfl

/-- the string that is written for some bytes is decoded to them -/
theorem decode_written (bytes : List UInt8) : decode (written bytes).toByteArray.data.toList = .ok bytes := by
  rw [written, bytes_of_ascii (ascii_encode bytes), decode_encode]

end PageShell.Base64
