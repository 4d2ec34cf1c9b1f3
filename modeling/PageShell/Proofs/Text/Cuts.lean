/-
Cutting texts that are put together from parts.

A separator ends one piece and begins the next, so cutting what stands on its two sides comes to the same as cutting
the whole: `split_append_sep` for all pieces, `fields_append_sep` for the non-empty ones, `words_append` for the words
of a line. `split_join` is the converse of `join_split`: pieces without separators survive being joined and cut again.
`cutAfterLast_append_sep` finds the last separator. What texts have in common at their start is found by counting bytes,
and comes to the same as comparing characters (`commonStart?_eq`): it is the longest such text
(`prefix_commonPrefixAll_iff`).
-/
import PageShell.Text.Blank

namespace PageShell.Text

variable {isSep : Char → Bool}

/-! ## All separators -/

theorem split_append_sep {c : Char} (hc : isSep c = true) (a b : List Char) :
    split isSep (a ++ c :: b) = ⟨(split isSep a).first, (split isSep a).rest ++ (split isSep b).toList⟩ := by
  induction a with
  | nil => simp [split_cons_sep hc]
  | cons d ds ih =>
    cases hd : isSep d with
    | true => simp [split_cons_sep hd, ih, Pieces.toList]
    | false => simp [split_cons_other hd, ih]

/-- what stands before the first separator goes into the first piece -/
theorem split_append_of_none {a : List Char} (h : ∀ c ∈ a, isSep c = false) (b : List Char) :
    split isSep (a ++ b) = ⟨a ++ (split isSep b).first, (split isSep b).rest⟩ := by
  induction a with
  | nil => rfl
  | cons d ds ih =>
    have hd : isSep d = false := h d List.mem_cons_self
    rw [List.cons_append, split_cons_other hd, ih fun c hc => h c (List.mem_cons_of_mem d hc)]
    rfl

theorem split_of_none {a : List Char} (h : ∀ c ∈ a, isSep c = false) : split isSep a = ⟨a, []⟩ := by
  simpa using split_append_of_none h []

/-- the pieces are those that the standard library cuts a list into -/
theorem toList_split_eq_splitOn (sep : Char) (s : List Char) : (split (· == sep) s).toList = s.splitOn sep := by
  induction s with
  | nil => rfl
  | cons c s ih =>
    rw [List.splitOn, List.splitOnP_cons_eq_if_modifyHead, ← List.splitOn, ← ih]
    by_cases hc : (c == sep) = true
    · rw [split_cons_sep (c := c) hc, if_pos hc]
      rfl
    · rw [split_cons_other (c := c) (by simpa using hc), if_neg hc]
      rfl

/-- pieces that hold no separator are found again when they are joined and cut -/
theorem split_join {sep : Char} (hsep : isSep sep = true) {p : Pieces}
    (h : ∀ s ∈ p.toList, ∀ c ∈ s, isSep c = false) : split isSep (p.join sep) = p := by
  obtain ⟨first, rest⟩ := p
  have hfirst : ∀ c ∈ first, isSep c = false := h first List.mem_cons_self
  induction rest generalizing first with
  | nil =>
    simp only [Pieces.join, List.flatMap_nil, List.append_nil]
    exact split_of_none hfirst
  | cons s rest ih =>
    have hrest : ∀ t ∈ s :: rest, ∀ c ∈ t, isSep c = false := fun t ht => h t (List.mem_cons_of_mem first ht)
    have hjoin : (Pieces.mk first (s :: rest)).join sep = first ++ sep :: (Pieces.mk s rest).join sep := by
      simp [Pieces.join]
    rw [hjoin, split_append_sep hsep, split_of_none hfirst, ih s hrest (hrest s List.mem_cons_self)]
    rfl

/-- pieces are joined by standing a separator between each two -/
theorem intercalate_toList (sep : Char) (p : Pieces) : [sep].intercalate p.toList = p.join sep := by
  obtain ⟨first, rest⟩ := p
  induction rest generalizing first with
  | nil => simp [Pieces.toList, Pieces.join]
  | cons s rest ih =>
    have hrest := ih s
    simp only [Pieces.toList, Pieces.join] at hrest ⊢
    rw [List.intercalate_cons_cons, hrest]
    simp

/-! ## The non-empty pieces -/

@[simp] theorem fields_nil : fields isSep [] = [] := rfl

theorem fields_append_sep {c : Char} (hc : isSep c = true) (a b : List Char) :
    fields isSep (a ++ c :: b) = fields isSep a ++ fields isSep b := by
  simp only [fields, split_append_sep hc, Pieces.toList]
  rw [← List.filter_append, List.cons_append]

theorem fields_of_none {a : List Char} (h : ∀ c ∈ a, isSep c = false) (hne : a ≠ []) : fields isSep a = [a] := by
  simp [fields, split_of_none h, Pieces.toList, hne]

theorem fields_of_sep {a : List Char} (h : ∀ c ∈ a, isSep c = true) : fields isSep a = [] := by
  induction a with
  | nil => rfl
  | cons c cs ih =>
    obtain ⟨hc, hcs⟩ := List.forall_mem_cons.1 h
    rw [← List.nil_append (c :: cs), fields_append_sep hc, ih hcs]
    rfl

/-! ## Words of a line -/

/-- a text without blank characters -/
def Unbroken (s : String) : Prop :=
  ∀ c ∈ s.toList, isBlank c = false

instance (s : String) : Decidable (Unbroken s) := List.decidableBAll _ s.toList

theorem Unbroken.append {s t : String} (hs : Unbroken s) (ht : Unbroken t) : Unbroken (s ++ t) := by
  intro c hc
  rw [String.toList_append] at hc
  rcases List.mem_append.1 hc with hc | hc
  · exact hs c hc
  · exact ht c hc

/-- a space between two texts keeps their words apart -/
theorem words_append (s t : String) : words (s ++ " " ++ t) = words s ++ words t := by
  have hspace : isBlank ' ' = true := by decide
  have htext : (s ++ " " ++ t).toList = s.toList ++ ' ' :: t.toList := by simp
  rw [words, words, words, htext, fields_append_sep hspace, List.map_append]

theorem words_empty : words "" = [] := by
  simp [words]

theorem words_of_blank {s : String} (h : isBlankText s = true) : words s = [] := by
  have hblank : ∀ c ∈ s.toList, isBlank c = true := List.all_eq_true.1 h
  rw [words, fields_of_sep hblank, List.map_nil]

theorem words_of_unbroken {s : String} (h : Unbroken s) (hne : s ≠ "") : words s = [s] := by
  rw [words, fields_of_none h (by simpa using hne)]
  simp

theorem unbroken_of_mem_words {line w : String} (h : w ∈ words line) : Unbroken w := by
  obtain ⟨s, hs, rfl⟩ := List.mem_map.1 h
  intro c hc
  exact not_sep_of_mem_split (List.mem_filter.1 hs).1 (by simpa using hc)

/-! ## The last separator -/

theorem cutAfterLast_of_none {s : List Char} (h : ∀ c ∈ s, isSep c = false) : cutAfterLast isSep s = ([], s) := by
  induction s with
  | nil => rfl
  | cons c cs ih =>
    have hc : isSep c = false := h c List.mem_cons_self
    simp [cutAfterLast, ih fun x hx => h x (List.mem_cons_of_mem c hx), hc]

/-- a text is cut behind the separator that no other follows -/
theorem cutAfterLast_append_sep {c : Char} (hc : isSep c = true) (head : List Char) {tail : List Char}
    (h : ∀ x ∈ tail, isSep x = false) : cutAfterLast isSep (head ++ c :: tail) = (head ++ [c], tail) := by
  induction head with
  | nil => simp [cutAfterLast, cutAfterLast_of_none h, hc]
  | cons d ds ih =>
    rw [List.cons_append, cutAfterLast, ih]
    cases ds <;> rfl

/-- what stands up to the last separator is empty or ends with a separator -/
theorem cutAfterLast_fst (isSep : Char → Bool) (s : List Char) :
    (cutAfterLast isSep s).1 = [] ∨ ∃ head c, isSep c = true ∧ (cutAfterLast isSep s).1 = head ++ [c] := by
  induction s with
  | nil => exact Or.inl rfl
  | cons c cs ih =>
    unfold cutAfterLast
    split
    · split
      · rename_i hc
        exact Or.inr ⟨[], c, hc, rfl⟩
      · exact Or.inl rfl
    · rename_i d head tail h
      rw [h] at ih
      obtain ⟨head', c', hc', e⟩ := ih.resolve_left (by simp)
      exact Or.inr ⟨c :: head', c', hc', by rw [List.cons_append, ← e]⟩

/-- a text without a separator is one piece; any other one has a last separator -/
theorem exists_last_sep (isSep : Char → Bool) (s : List Char) :
    (∀ c ∈ s, isSep c = false) ∨
      ∃ head c tail, s = head ++ c :: tail ∧ isSep c = true ∧ ∀ x ∈ tail, isSep x = false := by
  have htail : ∀ x ∈ (cutAfterLast isSep s).2, isSep x = false := fun x hx => not_sep_of_mem_cutAfterLast hx
  have hwhole := cutAfterLast_append isSep s
  rcases cutAfterLast_fst isSep s with hnone | ⟨head, c, hc, hhead⟩
  · rw [hnone, List.nil_append] at hwhole
    exact Or.inl (hwhole ▸ htail)
  · rw [hhead, List.append_assoc, List.singleton_append] at hwhole
    exact Or.inr ⟨head, c, _, hwhole.symm, hc, htail⟩

/-- the last piece of a text is what stands behind its last separator -/
theorem getLast?_split (isSep : Char → Bool) (s : List Char) :
    (split isSep s).toList.getLast? = some (cutAfterLast isSep s).2 := by
  rcases exists_last_sep isSep s with hnone | ⟨head, c, tail, rfl, hc, htail⟩
  · rw [cutAfterLast_of_none hnone, split_of_none hnone]
    rfl
  · rw [cutAfterLast_append_sep hc head htail, split_append_sep hc, split_of_none htail]
    exact List.getLast?_concat (l := (split isSep head).toList)

/-- what holds no separator is carried along behind the last one -/
theorem snd_cutAfterLast_append_of_none (a : List Char) {b : List Char} (h : ∀ c ∈ b, isSep c = false) :
    (cutAfterLast isSep (a ++ b)).2 = (cutAfterLast isSep a).2 ++ b := by
  rcases exists_last_sep isSep a with hnone | ⟨head, c, tail, rfl, hc, htail⟩
  · have hboth : ∀ c ∈ a ++ b, isSep c = false := List.forall_mem_append.2 ⟨hnone, h⟩
    rw [cutAfterLast_of_none hboth, cutAfterLast_of_none hnone]
  · have hboth : ∀ c ∈ tail ++ b, isSep c = false := List.forall_mem_append.2 ⟨htail, h⟩
    rw [List.append_assoc, List.cons_append, cutAfterLast_append_sep hc head hboth,
      cutAfterLast_append_sep hc head htail]

/-- what stands behind the last separator does not depend on what stands before another one -/
theorem snd_cutAfterLast_append_sep {c : Char} (hc : isSep c = true) (a b : List Char) :
    (cutAfterLast isSep (a ++ c :: b)).2 = (cutAfterLast isSep b).2 := by
  have hpieces : (split isSep (a ++ c :: b)).toList = (split isSep a).toList ++ (split isSep b).toList := by
    rw [split_append_sep hc]
    rfl
  have hlast := getLast?_split isSep (a ++ c :: b)
  rw [hpieces, List.getLast?_append, getLast?_split, Option.some_or, Option.some.injEq] at hlast
  exact hlast.symm

/-! ## What texts share -/

/-- the longest common start of two texts -/
def commonPrefix : List Char → List Char → List Char
  | a :: as, b :: bs => if a = b then a :: commonPrefix as bs else []
  | _, _ => []

/-- the longest common start of all texts of a list; empty for no text -/
def commonPrefixAll : List (List Char) → List Char
  | [] => []
  | s :: rest => rest.foldl commonPrefix s

/-- what starts the common start of two texts starts both, and the other way round -/
theorem prefix_commonPrefix_iff {s a b : List Char} : s <+: commonPrefix a b ↔ s <+: a ∧ s <+: b := by
  induction a generalizing s b with
  | nil =>
    cases s with
    | nil => simp
    | cons c s => simp [commonPrefix]
  | cons x xs ih =>
    cases s with
    | nil => simp
    | cons c s =>
      cases b with
      | nil => simp [commonPrefix]
      | cons y ys =>
        by_cases hxy : x = y
        · subst hxy
          rw [commonPrefix, if_pos rfl, List.cons_prefix_cons, List.cons_prefix_cons, List.cons_prefix_cons, ih,
            and_and_left]
        · rw [commonPrefix, if_neg hxy, List.cons_prefix_cons, List.cons_prefix_cons, List.prefix_nil]
          constructor
          · intro h
            cases h
          · rintro ⟨⟨hx, -⟩, hy, -⟩
            exact absurd (hx.symm.trans hy) hxy

theorem prefix_foldl_commonPrefix_iff {s t : List Char} {texts : List (List Char)} :
    s <+: texts.foldl commonPrefix t ↔ s <+: t ∧ ∀ u ∈ texts, s <+: u := by
  induction texts generalizing t with
  | nil => simp
  | cons u texts ih => rw [List.foldl_cons, ih, prefix_commonPrefix_iff, List.forall_mem_cons, and_assoc]

/-- the start that some texts share is the longest one that they share -/
theorem prefix_commonPrefixAll_iff {s : List Char} {texts : List (List Char)} (h : texts ≠ []) :
    s <+: commonPrefixAll texts ↔ ∀ t ∈ texts, s <+: t := by
  obtain ⟨t, rest, rfl⟩ := List.exists_cons_of_ne_nil h
  rw [commonPrefixAll, prefix_foldl_commonPrefix_iff, List.forall_mem_cons]

theorem commonPrefixAll_start (s : List Char) (rest : List (List Char)) : commonPrefixAll (s :: rest) <+: s :=
  (prefix_commonPrefixAll_iff (List.cons_ne_nil s rest)).1 (List.prefix_refl _) s List.mem_cons_self

/-! ## What texts share, by bytes -/

/-- the bytes of a beginning of a text are that beginning -/
theorem takeBytes?_of_prefix {p s : List Char} (h : p <+: s) : takeBytes? (byteLength p) s = some p := by
  obtain ⟨rest, rfl⟩ := h
  induction p with
  | nil => cases rest <;> rfl
  | cons c p ih =>
    have hne : byteLength (c :: p) ≠ 0 := by
      have hpos := c.utf8Size_pos
      rw [byteLength]
      omega
    have hle : c.utf8Size ≤ byteLength (c :: p) := by
      rw [byteLength]
      omega
    have hrest : byteLength (c :: p) - c.utf8Size = byteLength p := by
      rw [byteLength]
      omega
    rw [List.cons_append, takeBytes?, if_neg hne, if_pos hle, hrest, ih, Option.map_some]

/-- where the characters of `first` below the bound `p`, from any offset on, stop agreeing with those of `s` -/
theorem end_of_shared {p first : List Char} (h : p <+: first) (s : List Char) (offset : Nat) :
    ((((charOffsets offset first).zip s).takeWhile fun q => q.1.1 < offset + byteLength p && q.1.2 == q.2).map
      fun q => q.1.1 + q.1.2.utf8Size).getLast?.getD offset = offset + byteLength (commonPrefix p s) := by
  obtain ⟨rest, rfl⟩ := h
  induction p generalizing s offset with
  | nil => cases rest <;> cases s <;> simp [charOffsets, byteLength, commonPrefix]
  | cons c p ih =>
    cases s with
    | nil => simp [commonPrefix, byteLength]
    | cons d ds =>
      have hbelow : offset < offset + byteLength (c :: p) := by
        have hpos := c.utf8Size_pos
        rw [byteLength]
        omega
      rw [List.cons_append, charOffsets, List.zip_cons_cons, List.takeWhile_cons]
      by_cases hcd : c = d
      · subst hcd
        have hbound : offset + byteLength (c :: p) = offset + c.utf8Size + byteLength p := by
          rw [byteLength, Nat.add_assoc]
        rw [if_pos (by simp [hbelow]), List.map_cons, List.getLast?_cons, Option.getD_some, hbound, ih, commonPrefix,
          if_pos rfl, byteLength, Nat.add_assoc]
      · rw [if_neg (by simp [hcd]), commonPrefix, if_neg hcd]
        rfl

theorem sharedBytes_eq {p first : List Char} (h : p <+: first) (s : List Char) :
    sharedBytes first (byteLength p) s = byteLength (commonPrefix p s) := by
  simpa [sharedBytes] using end_of_shared h s 0

/-- the bound that the texts leave is where the characters that all of them share end -/
theorem foldl_sharedBytes {p first : List Char} (h : p <+: first) (texts : List (List Char)) :
    texts.foldl (sharedBytes first) (byteLength p) = byteLength (texts.foldl commonPrefix p) := by
  induction texts generalizing p with
  | nil => rfl
  | cons s texts ih =>
    have hshared : commonPrefix p s <+: p := (prefix_commonPrefix_iff.1 (List.prefix_refl _)).1
    rw [List.foldl_cons, List.foldl_cons, sharedBytes_eq h, ih (hshared.trans h)]

/-- counting bytes never cuts a character, and leaves the longest start that all the texts share -/
theorem commonStart?_eq (texts : List (List Char)) : commonStart? texts = some (commonPrefixAll texts) := by
  cases texts with
  | nil => rfl
  | cons first rest =>
    rw [commonStart?, foldl_sharedBytes (List.prefix_refl first)]
    exact takeBytes?_of_prefix (commonPrefixAll_start first rest)

end PageShell.Text
