/-
What a pass of `tidy` does to a path, and what it leaves alone.

A segment is inert if it is neither one dot nor starts with two dots. No pass looks at what stands in an inert segment,
so an end of a path that is made of inert segments is carried through all passes (`settle_append`), and a path of inert
segments only loses its empty ones (`tidy_of_inert`). Whatever the path, no segment but the last is empty after a pass
(`settle_shape`).
-/
import PageShell.Path.Resolve

namespace PageShell.Path

open Text

/-! ## Inert segments -/

/-- neither one dot nor two dots at the start -/
def Inert (s : List Char) : Prop :=
  s ≠ ['.'] ∧ startsWithParent s = false

instance (s : List Char) : Decidable (Inert s) := inferInstanceAs (Decidable (_ ∧ _))

theorem inert_nil : Inert [] := by decide

/-- nothing is taken out if no segment behind the first one starts with two dots -/
theorem dropParents_of_no_parent (before : List Char) {rest : List (List Char)}
    (h : ∀ s ∈ rest.tail, startsWithParent s = false) : dropParents before rest = ⟨before, rest⟩ := by
  induction rest generalizing before with
  | nil => rfl
  | cons a rest ih =>
    cases rest with
    | nil => rfl
    | cons b rest =>
      have hb : startsWithParent b = false := h b List.mem_cons_self
      rw [dropParents, hb, Bool.and_false, ih a fun s hs => h s (List.mem_of_mem_tail hs)]
      rfl

theorem dropParents_of_inert (before : List Char) {rest : List (List Char)} (h : ∀ s ∈ rest, Inert s) :
    dropParents before rest = ⟨before, rest⟩ :=
  dropParents_of_no_parent before fun s hs => (h s (List.mem_of_mem_tail hs)).2

/-- nothing is dropped if no segment but the last is one dot -/
theorem dropDots_of_dropLast {rest : List (List Char)} (h : ∀ s ∈ rest.dropLast, s ≠ ['.']) : dropDots rest = rest := by
  induction rest with
  | nil => rfl
  | cons a rest ih =>
    cases rest with
    | nil => rfl
    | cons b rest =>
      rw [List.dropLast_cons_cons] at h
      have hrest := ih fun s hs => h s (List.mem_cons_of_mem a hs)
      rw [dropDots, if_neg (h a List.mem_cons_self), hrest]

theorem dropDots_of_no_dot {rest : List (List Char)} (h : ∀ s ∈ rest, s ≠ ['.']) : dropDots rest = rest :=
  dropDots_of_dropLast fun s hs => h s ((List.dropLast_sublist rest).subset hs)

theorem tidy_of_inert (first : List Char) {rest : List (List Char)} (h : ∀ s ∈ rest, Inert s) :
    tidy ⟨first, rest⟩ = ⟨first, dropEmpty rest⟩ := by
  simp only [tidy, dropParents_of_inert first h, dropDots_of_no_dot fun s hs => (h s hs).1]

/-! ## Inert ends -/

/-- segments behind `rest` do not change what is taken out of it -/
theorem dropParents_append (before : List Char) (rest : List (List Char)) {tail : List (List Char)}
    (h : ∀ s ∈ tail, Inert s) :
    dropParents before (rest ++ tail) =
      ⟨(dropParents before rest).first, (dropParents before rest).rest ++ tail⟩ := by
  fun_induction dropParents before rest with
  | case1 before => exact dropParents_of_inert before h
  | case2 before a =>
    cases tail with
    | nil => rfl
    | cons b tail =>
      have hb : startsWithParent b = false := (h b List.mem_cons_self).2
      simp [dropParents, hb, dropParents_of_inert a h, Pieces.toList]
  | case3 before a b rest hdel ih =>
    rw [List.cons_append, List.cons_append, dropParents, if_pos hdel, ih]
  | case4 before a b rest hdel ih =>
    rw [List.cons_append, List.cons_append, dropParents, if_neg hdel, ← List.cons_append, ih]
    rfl

theorem dropDots_append (rest : List (List Char)) : ∃ kept : List (List Char), ∀ tail : List (List Char), tail ≠ [] →
    (∀ s ∈ tail, Inert s) → dropDots (rest ++ tail) = kept ++ tail := by
  induction rest using dropDots.induct with
  | case1 => exact ⟨[], fun tail _ h => dropDots_of_no_dot fun s hs => (h s hs).1⟩
  | case2 a =>
    by_cases ha : a = ['.']
    · refine ⟨[], ?_⟩
      intro tail hne h
      obtain ⟨t, ts, rfl⟩ := List.exists_cons_of_ne_nil hne
      have hts := dropDots_of_no_dot fun s hs => (h s (List.mem_cons_of_mem t hs)).1
      simp [dropDots, ha, hts]
    · refine ⟨[a], ?_⟩
      intro tail hne h
      obtain ⟨t, ts, rfl⟩ := List.exists_cons_of_ne_nil hne
      have htail := dropDots_of_no_dot fun s hs => (h s hs).1
      simp [dropDots, ha, htail]
  | case3 b rest ih =>
    obtain ⟨kept, hkept⟩ := ih
    exact ⟨b :: kept, fun tail hne h => by simp [dropDots, hkept tail hne h]⟩
  | case4 a b rest ha ih =>
    obtain ⟨kept, hkept⟩ := ih
    refine ⟨a :: kept, ?_⟩
    intro tail hne h
    have htail := hkept tail hne h
    rw [List.cons_append] at htail
    simp [dropDots, ha, htail]

theorem dropEmpty_append (rest : List (List Char)) {tail : List (List Char)} (hne : tail ≠ []) :
    dropEmpty (rest ++ tail) = rest.filter (!·.isEmpty) ++ dropEmpty tail := by
  induction rest with
  | nil => rfl
  | cons a rest ih =>
    obtain ⟨b, more, hb⟩ : ∃ b more, rest ++ tail = b :: more := List.exists_cons_of_ne_nil (by simp [hne])
    rw [List.cons_append, hb, dropEmpty, ← hb, ih]
    cases ha : a.isEmpty <;> simp [ha]

/-- an end of a path that passes leave as it is -/
structure Settled (tail : List (List Char)) : Prop where
  ne_nil : tail ≠ []
  inert : ∀ s ∈ tail, Inert s
  dropEmpty_eq : dropEmpty tail = tail

theorem tidy_append (first : List Char) (rest : List (List Char)) : ∃ first' rest', ∀ tail, Settled tail →
    tidy ⟨first, rest ++ tail⟩ = ⟨first', rest' ++ tail⟩ := by
  obtain ⟨kept, hkept⟩ := dropDots_append (dropParents first rest).rest
  refine ⟨(dropParents first rest).first, kept.filter (!·.isEmpty), ?_⟩
  intro tail h
  simp only [tidy, dropParents_append first rest h.inert, hkept tail h.ne_nil h.inert, dropEmpty_append kept h.ne_nil,
    h.dropEmpty_eq]

/-! ## All passes -/

theorem settle_of_tidy {p : Pieces} (h : tidy p = p) (n : Nat) : settle n p = p := by
  cases n with
  | zero => rfl
  | succ n => simp [settle, h]

/-- a pass may be made first, also if it changes nothing -/
theorem settle_succ (n : Nat) (p : Pieces) : settle (n + 1) p = settle n (tidy p) := by
  by_cases h : tidy p = p
  · rw [h, settle_of_tidy h, settle_of_tidy h]
  · rw [settle, if_neg h]

/-- what stands before a settled end comes to the same for every such end -/
theorem settle_append (n : Nat) (first : List Char) (rest : List (List Char)) : ∃ first' rest', ∀ tail, Settled tail →
    settle n ⟨first, rest ++ tail⟩ = ⟨first', rest' ++ tail⟩ := by
  induction n generalizing first rest with
  | zero => exact ⟨first, rest, fun tail _ => rfl⟩
  | succ n ih =>
    obtain ⟨first₁, rest₁, h₁⟩ := tidy_append first rest
    obtain ⟨first₂, rest₂, h₂⟩ := ih first₁ rest₁
    exact ⟨first₂, rest₂, fun tail h => by rw [settle_succ, h₁ tail h, h₂ tail h]⟩

/-- after at least one pass there is a pass that was the last one -/
theorem settle_eq_tidy (n : Nat) (p : Pieces) : ∃ q, settle (n + 1) p = tidy q := by
  induction n generalizing p with
  | zero => exact ⟨p, settle_succ 0 p⟩
  | succ n ih =>
    obtain ⟨q, hq⟩ := ih (tidy p)
    exact ⟨q, by rw [settle_succ, hq]⟩

/-! ## Empty segments -/

theorem dropEmpty_snoc (rest : List (List Char)) (last : List Char) :
    dropEmpty (rest ++ [last]) = rest.filter (!·.isEmpty) ++ [last] :=
  dropEmpty_append rest (List.cons_ne_nil last [])

theorem dropEmpty_sublist (rest : List (List Char)) : (dropEmpty rest).Sublist rest := by
  rcases List.eq_nil_or_concat rest with rfl | ⟨init, last, rfl⟩
  · exact List.Sublist.refl []
  · rw [List.concat_eq_append, dropEmpty_snoc]
    exact List.filter_sublist.append (List.Sublist.refl [last])

theorem dropEmpty_idem (rest : List (List Char)) : dropEmpty (dropEmpty rest) = dropEmpty rest := by
  rcases List.eq_nil_or_concat rest with rfl | ⟨init, last, rfl⟩
  · rfl
  · rw [List.concat_eq_append, dropEmpty_snoc, dropEmpty_snoc, List.filter_filter]
    simp

theorem filter_dropEmpty (rest : List (List Char)) :
    (dropEmpty rest).filter (!·.isEmpty) = rest.filter (!·.isEmpty) := by
  rcases List.eq_nil_or_concat rest with rfl | ⟨init, last, rfl⟩
  · rfl
  · simp [dropEmpty_snoc]

/-- a path of inert segments loses its empty ones, the last one apart, and is done -/
theorem settle_of_inert (n : Nat) (first : List Char) {rest : List (List Char)} (h : ∀ s ∈ rest, Inert s) :
    settle (n + 1) ⟨first, rest⟩ = ⟨first, dropEmpty rest⟩ := by
  have hdrop : ∀ s ∈ dropEmpty rest, Inert s := fun s hs => h s ((dropEmpty_sublist rest).subset hs)
  rw [settle_succ, tidy_of_inert first h]
  exact settle_of_tidy (by rw [tidy_of_inert first hdrop, dropEmpty_idem]) n

/-- behind the first piece of a path that a pass has tidied, only the last piece can be empty -/
theorem settle_shape (n : Nat) (p : Pieces) : (settle (n + 1) p).rest = [] ∨
    ∃ kept last, (settle (n + 1) p).rest = kept ++ [last] ∧ ∀ s ∈ kept, s ≠ [] := by
  obtain ⟨q, hq⟩ := settle_eq_tidy n p
  rw [hq]
  rcases List.eq_nil_or_concat (dropDots (dropParents q.first q.rest).rest) with h | ⟨init, last, h⟩
  · exact Or.inl (by simp only [tidy, h]; rfl)
  · refine Or.inr ⟨init.filter (!·.isEmpty), last, ?_, fun s hs => by simpa using (List.mem_filter.1 hs).2⟩
    simp only [tidy, h, List.concat_eq_append, dropEmpty_snoc]

/-! ## Two dots at the end -/

/-- the segment that leads to the parent -/
def parent : List Char := ['.', '.']

theorem dropEmpty_of_ne_nil {rest : List (List Char)} (h : ∀ s ∈ rest, s ≠ []) : dropEmpty rest = rest := by
  rcases List.eq_nil_or_concat rest with rfl | ⟨init, last, rfl⟩
  · rfl
  · have hinit : init.filter (!·.isEmpty) = init :=
      List.filter_eq_self.2 fun s hs => by simpa using h s (by simp [hs])
    rw [List.concat_eq_append, dropEmpty_snoc, hinit]

/-- two dots take out the segment before them -/
theorem dropParents_parent (before : List Char) {init : List (List Char)} {last : List Char}
    (hinit : ∀ s ∈ init, Inert s) (hlast : Inert last) (hne : last ≠ []) :
    dropParents before (init ++ [last, parent]) = ⟨before, init⟩ := by
  induction init generalizing before with
  | nil => simp [dropParents, hne, startsWithParent, parent]
  | cons a init ih =>
    obtain ⟨b, more, hb, hb'⟩ : ∃ b more, init ++ [last, parent] = b :: more ∧ startsWithParent b = false := by
      cases init with
      | nil => exact ⟨last, [parent], rfl, hlast.2⟩
      | cons b init => exact ⟨b, init ++ [last, parent], rfl, (hinit b (by simp)).2⟩
    rw [List.cons_append, hb, dropParents, hb', Bool.and_false, ← hb,
      ih a fun s hs => hinit s (List.mem_cons_of_mem a hs)]
    rfl

/-- two dots take out nothing if the segment before them is empty -/
theorem dropParents_empty_parent (before : List Char) {init : List (List Char)} (hinit : ∀ s ∈ init, Inert s) :
    dropParents before (init ++ [[], parent]) = ⟨before, init ++ [[], parent]⟩ := by
  induction init generalizing before with
  | nil => rfl
  | cons a init ih =>
    obtain ⟨b, more, hb, hb'⟩ : ∃ b more, init ++ [[], parent] = b :: more ∧ startsWithParent b = false := by
      cases init with
      | nil => exact ⟨[], [parent], rfl, rfl⟩
      | cons b init => exact ⟨b, init ++ [[], parent], rfl, (hinit b (by simp)).2⟩
    rw [List.cons_append, hb, dropParents, hb', Bool.and_false, ← hb,
      ih a fun s hs => hinit s (List.mem_cons_of_mem a hs)]
    rfl

theorem settle_parent (n : Nat) {init : List (List Char)} {last : List Char} (hinit : ∀ s ∈ init, Inert s)
    (hfull : ∀ s ∈ init, s ≠ []) (hlast : Inert last) (hne : last ≠ []) :
    settle (n + 1) ⟨[], init ++ [last, parent]⟩ = ⟨[], init⟩ := by
  have htidy : tidy ⟨[], init ++ [last, parent]⟩ = ⟨[], init⟩ := by
    simp only [tidy, dropParents_parent [] hinit hlast hne, dropEmpty_of_ne_nil hfull,
      dropDots_of_no_dot fun s hs => (hinit s hs).1]
  rw [settle_succ, htidy]
  exact settle_of_tidy (by rw [tidy_of_inert [] hinit, dropEmpty_of_ne_nil hfull]) n

/-- behind a slash at the end, two dots wait for a pass that takes the empty segment out -/
theorem settle_empty_parent (n : Nat) {init : List (List Char)} (hinit : ∀ s ∈ init, Inert s)
    (hfull : ∀ s ∈ init, s ≠ []) :
    settle (n + 1) ⟨[], init ++ [[], parent]⟩ = settle n ⟨[], init ++ [parent]⟩ := by
  have hdots : dropDots (init ++ [[], parent]) = init ++ [[], parent] := by
    refine dropDots_of_no_dot ?_
    intro s hs
    rcases List.mem_append.1 hs with hs | hs
    · exact (hinit s hs).1
    · rcases List.mem_cons.1 hs with rfl | hs
      · decide
      · exact List.mem_singleton.1 hs ▸ by decide
  have hempty : dropEmpty (init ++ [[], parent]) = init ++ [parent] := by
    have hinit' : init.filter (!·.isEmpty) = init := List.filter_eq_self.2 fun s hs => by simpa using hfull s hs
    rw [dropEmpty_append init (by simp), hinit']
    rfl
  have htidy : tidy ⟨[], init ++ [[], parent]⟩ = ⟨[], init ++ [parent]⟩ := by
    simp only [tidy, dropParents_empty_parent [] hinit, hdots, hempty]
  rw [settle_succ, htidy]

/-! ## No new characters -/

section Characters

variable {P : Char → Prop}

theorem dropParents_forall {before : List Char} {rest : List (List Char)} (hb : ∀ c ∈ before, P c)
    (hr : ∀ s ∈ rest, ∀ c ∈ s, P c) : ∀ s ∈ (dropParents before rest).toList, ∀ c ∈ s, P c := by
  fun_induction dropParents before rest with
  | case1 before => simpa [Pieces.toList] using hb
  | case2 before a => simpa [Pieces.toList] using And.intro hb (hr a List.mem_cons_self)
  | case3 before a b rest _ ih =>
    refine ih ?_ fun s hs => hr s (by simp [hs])
    intro c hc
    rcases List.mem_append.1 hc with hc | hc
    · exact hb c hc
    · exact hr b (by simp) c (List.mem_of_mem_drop hc)
  | case4 before a b rest _ ih =>
    intro s hs
    rcases List.mem_cons.1 hs with rfl | hs
    · exact hb
    · exact ih (hr a (by simp)) (fun t ht => hr t (List.mem_cons_of_mem a ht)) s hs

theorem dropDots_sublist (rest : List (List Char)) : (dropDots rest).Sublist rest := by
  induction rest using dropDots.induct with
  | case1 => exact List.Sublist.refl []
  | case2 a => exact List.Sublist.refl [a]
  | case3 b rest ih =>
    simp only [dropDots, if_true]
    exact (ih.cons_cons b).cons ['.']
  | case4 a b rest ha ih =>
    simp only [dropDots, if_neg ha]
    exact ih.cons_cons a

theorem tidy_forall {p : Pieces} (h : ∀ s ∈ p.toList, ∀ c ∈ s, P c) : ∀ s ∈ (tidy p).toList, ∀ c ∈ s, P c := by
  have hparents := dropParents_forall (h p.first List.mem_cons_self) fun s hs => h s (List.mem_cons_of_mem p.first hs)
  intro s hs
  rcases List.mem_cons.1 hs with rfl | hs
  · exact hparents _ List.mem_cons_self
  · exact hparents s (List.mem_cons_of_mem _ (((dropEmpty_sublist _).trans (dropDots_sublist _)).subset hs))

/-- passes put no character into a path -/
theorem settle_forall (n : Nat) {p : Pieces} (h : ∀ s ∈ p.toList, ∀ c ∈ s, P c) :
    ∀ s ∈ (settle n p).toList, ∀ c ∈ s, P c := by
  induction n generalizing p with
  | zero => exact h
  | succ n ih =>
    rw [settle_succ]
    exact ih (tidy_forall h)

end Characters

end PageShell.Path
