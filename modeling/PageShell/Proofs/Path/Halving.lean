/-
How many passes a path takes.

What a pass can take out is a segment of one dot, or a segment that starts with two dots and the one before it. Taking
out can bring up new ones: the two dots of `/./x/...` are glued to the dot, and the next pass meets `/..`. `load` weighs
what is left. A segment that starts with two dots weighs one, unless it is the first, which stays; a dot weighs two, as it
can become such a segment, unless it is the last piece, which stays too.

The first pass takes out the empty segments. From then on each pass leaves at most half of the load (`load_tidy`): of a
run of dots every second one goes, and a segment that starts with two dots is left over only right behind one that goes,
unless it was a dot before. A path without load is done (`tidy_of_load_eq_zero`). So far fewer than 64 passes are enough
for a path of fewer than 2 ^ 31 characters, and the bound cuts none short (`passes_suffice`).
-/
import Mathlib.Logic.Function.Iterate
import Mathlib.Tactic.Ring
import PageShell.Proofs.Path.Spelling

namespace PageShell.Path

open Text

/-! ## What is left to take out -/

/-- how many segments start with two dots -/
def parents (segs : List (List Char)) : Nat :=
  segs.countP startsWithParent

/-- how many segments are one dot, the last piece apart -/
def dots (segs : List (List Char)) : Nat :=
  segs.dropLast.count ['.']

/-- how much passes may still take out of the pieces behind the first slash -/
def load (segs : List (List Char)) : Nat :=
  parents segs.tail + 2 * dots segs

@[simp] theorem parents_nil : parents [] = 0 := rfl

theorem parents_cons (a : List Char) (segs : List (List Char)) :
    parents (a :: segs) = parents segs + if startsWithParent a = true then 1 else 0 :=
  List.countP_cons

theorem parents_le_of_sublist {segs segs' : List (List Char)} (h : segs.Sublist segs') : parents segs ≤ parents segs' :=
  h.countP_le

theorem dots_cons_cons (a b : List Char) (segs : List (List Char)) :
    dots (a :: b :: segs) = dots (b :: segs) + if a = ['.'] then 1 else 0 := by
  simp [dots, List.count_cons]

theorem dots_cons_le (a : List Char) (segs : List (List Char)) :
    dots (a :: segs) ≤ dots segs + if a = ['.'] then 1 else 0 := by
  cases segs with
  | nil => simp [dots]
  | cons b segs => exact Nat.le_of_eq (dots_cons_cons a b segs)

theorem dots_le_cons (a : List Char) (segs : List (List Char)) : dots segs ≤ dots (a :: segs) := by
  cases segs with
  | nil => simp [dots]
  | cons b segs => simp [dots_cons_cons]

/-- no segment but the last is empty -/
def Tight (segs : List (List Char)) : Prop :=
  ∀ s ∈ segs.dropLast, s ≠ []

theorem Tight.tail {a : List Char} {segs : List (List Char)} (h : Tight (a :: segs)) : Tight segs := by
  cases segs with
  | nil => simp [Tight]
  | cons b segs => exact fun s hs => h s (List.mem_cons_of_mem a hs)

theorem Tight.head_ne_nil {a b : List Char} {segs : List (List Char)} (h : Tight (a :: b :: segs)) : a ≠ [] :=
  h a List.mem_cons_self

/-! ## One pass -/

/-- the first piece only grows at its end -/
theorem first_dropParents (before : List Char) (rest : List (List Char)) :
    ∃ glued, (dropParents before rest).first = before ++ glued := by
  fun_induction dropParents before rest with
  | case1 before => exact ⟨[], (List.append_nil before).symm⟩
  | case2 before a => exact ⟨[], (List.append_nil before).symm⟩
  | case3 before a b rest _ ih =>
    obtain ⟨glued, hglued⟩ := ih
    exact ⟨b.drop 2 ++ glued, by rw [hglued, List.append_assoc]⟩
  | case4 before a b rest _ _ => exact ⟨[], (List.append_nil before).symm⟩

theorem startsWithParent_iff {s : List Char} : startsWithParent s = true ↔ parent <+: s := by
  constructor
  · intro h
    unfold startsWithParent at h
    split at h
    · rename_i rest
      exact ⟨rest, rfl⟩
    · cases h
  · intro ⟨rest, h⟩
    rw [← h]
    rfl

/-- no segment becomes a dot by what is glued to it -/
theorem eq_dot_of_append {a glued : List Char} (hne : a ≠ []) (h : a ++ glued = ['.']) : a = ['.'] := by
  obtain ⟨c, cs, rfl⟩ := List.exists_cons_of_ne_nil hne
  rw [List.cons_append, List.cons.injEq, List.append_eq_nil_iff] at h
  rw [h.1, h.2.1]

/-- an inert segment stays inert whatever is glued to it -/
theorem Inert.append {a : List Char} (h : Inert a) (hne : a ≠ []) (glued : List Char) : Inert (a ++ glued) := by
  obtain ⟨hdot, hparent⟩ := h
  refine ⟨fun hglued => hdot (eq_dot_of_append hne hglued), ?_⟩
  by_contra hglued
  have hstart : parent <+: a ++ glued := startsWithParent_iff.1 (by simpa using hglued)
  rcases List.prefix_or_prefix_of_prefix hstart (List.prefix_append a glued) with hlong | hshort
  · rw [startsWithParent_iff.2 hlong] at hparent
    cases hparent
  · obtain ⟨c, cs, rfl⟩ := List.exists_cons_of_ne_nil hne
    obtain ⟨rfl, hcs⟩ := List.cons_prefix_cons.1 hshort
    cases cs with
    | nil => exact hdot rfl
    | cons d cs =>
      obtain ⟨rfl, -⟩ := List.cons_prefix_cons.1 hcs
      cases hparent

/-- a segment counts as one of the two kinds unless it is inert -/
theorem kinds_eq (a : List Char) :
    (if startsWithParent a = true then 1 else 0) + (if a = ['.'] then 1 else 0) = if Inert a then 0 else 1 := by
  by_cases hdot : a = ['.']
  · rw [hdot]
    rfl
  · cases h : startsWithParent a <;> simp [Inert, hdot, h]

theorem dot_append_le {a : List Char} (hne : a ≠ []) (glued : List Char) :
    (if a ++ glued = ['.'] then 1 else 0) ≤ if a = ['.'] then 1 else 0 := by
  by_cases h : a ++ glued = ['.']
  · exact Nat.le_of_eq (by rw [if_pos h, if_pos (eq_dot_of_append hne h)])
  · rw [if_neg h]
    exact Nat.zero_le _

theorem kinds_append_le {a : List Char} (hne : a ≠ []) (glued : List Char) :
    (if startsWithParent (a ++ glued) = true then 1 else 0) + (if a ++ glued = ['.'] then 1 else 0) ≤
      (if startsWithParent a = true then 1 else 0) + if a = ['.'] then 1 else 0 := by
  rw [kinds_eq, kinds_eq]
  by_cases h : Inert a
  · rw [if_pos (h.append hne glued)]
    exact Nat.zero_le _
  · rw [if_neg h]
    split <;> decide

theorem parents_take_one_le (segs : List (List Char)) : parents (segs.take 1) ≤ 1 :=
  calc parents (segs.take 1)
    _ ≤ (segs.take 1).length := List.countP_le_length
    _ ≤ 1 := List.length_take_le 1 segs

/--
Taking parents out leaves half of the load. The induction needs a bound that also counts the first segment, since the
recursion makes it the second one of a longer list; where it starts with two dots, what has been taken out before it pays.
-/
theorem halves_dropParents (before : List Char) {rest : List (List Char)} (h : Tight rest) :
    2 * (parents (dropParents before rest).rest + dots (dropParents before rest).rest) ≤
        parents (rest.take 1) + parents rest + 2 * dots rest ∧
      2 * (parents (dropParents before rest).rest.tail + dots (dropParents before rest).rest) ≤ load rest := by
  fun_induction dropParents before rest with
  | case1 before => simp [parents, dots]
  | case2 before a =>
    have hdots : dots [a] = 0 := rfl
    simp only [load, List.take_succ_cons, List.take_zero, List.tail_cons, parents_nil, hdots]
    omega
  | case3 before a b rest hdel ih =>
    have hb : startsWithParent b = true := (Bool.and_eq_true_iff.1 hdel).2
    obtain ⟨hafter, -⟩ := ih h.tail.tail
    have hfirst := parents_take_one_le rest
    have htail : parents (b :: rest) = parents rest + 1 := by rw [parents_cons, if_pos hb]
    have hall : parents (b :: rest) ≤ parents (a :: b :: rest) := parents_le_of_sublist (List.sublist_cons_self a _)
    have hdots : dots rest ≤ dots (a :: b :: rest) := Nat.le_trans (dots_le_cons b rest) (dots_le_cons a (b :: rest))
    have hrest : parents (dropParents (before ++ b.drop 2) rest).rest.tail ≤
        parents (dropParents (before ++ b.drop 2) rest).rest := parents_le_of_sublist (List.tail_sublist _)
    have hload : load (a :: b :: rest) = parents (b :: rest) + 2 * dots (a :: b :: rest) := rfl
    omega
  | case4 before a b rest hkeep ih =>
    have hne : a ≠ [] := h.head_ne_nil
    have hb : startsWithParent b = false := by simpa [hne] using hkeep
    obtain ⟨glued, hglued⟩ := first_dropParents a (b :: rest)
    obtain ⟨hafter, -⟩ := ih h.tail
    have hkinds := kinds_append_le hne glued
    have hdot := dot_append_le hne glued
    have hdots := dots_cons_le (a ++ glued) (dropParents a (b :: rest)).rest
    simp only [Pieces.toList, hglued, load, parents_cons, dots_cons_cons, hb, List.take_succ_cons, List.take_zero,
      List.tail_cons, parents_nil, Bool.false_eq_true, if_false] at hafter ⊢
    omega

/-- of a run of dots every second one is dropped -/
theorem halves_dropDots (segs : List (List Char)) : 2 * dots (dropDots segs) ≤ dots segs := by
  induction segs using dropDots.induct with
  | case1 => simp [dropDots, dots]
  | case2 a => simp [dropDots, dots]
  | case3 b rest ih =>
    rw [dropDots, if_pos rfl, dots_cons_cons, if_pos rfl]
    cases rest with
    | nil => simp [dropDots, dots]
    | cons c rest =>
      have hkept := dots_cons_le b (dropDots (c :: rest))
      have hone : (if b = ['.'] then 1 else 0) ≤ 1 := by split <;> decide
      rw [dots_cons_cons]
      omega
  | case4 a b rest ha ih =>
    have hkept := dots_cons_le a (dropDots (b :: rest))
    rw [if_neg ha] at hkept
    rw [dropDots, if_neg ha, dots_cons_cons, if_neg ha]
    omega

theorem tight_dropEmpty (segs : List (List Char)) : Tight (dropEmpty segs) := by
  rcases List.eq_nil_or_concat segs with rfl | ⟨init, last, rfl⟩
  · simp [dropEmpty, Tight]
  · intro s hs
    rw [List.concat_eq_append, dropEmpty_snoc, List.dropLast_concat] at hs
    simpa using (List.mem_filter.1 hs).2

theorem dropEmpty_of_tight {segs : List (List Char)} (h : Tight segs) : dropEmpty segs = segs := by
  rcases List.eq_nil_or_concat segs with rfl | ⟨init, last, rfl⟩
  · rfl
  · rw [List.concat_eq_append] at h ⊢
    have hinit : init.filter (!·.isEmpty) = init :=
      List.filter_eq_self.2 fun s hs => by simpa using h s (by rwa [List.dropLast_concat])
    rw [dropEmpty_snoc, hinit]

theorem dots_dropEmpty_le (segs : List (List Char)) : dots (dropEmpty segs) ≤ dots segs := by
  rcases List.eq_nil_or_concat segs with rfl | ⟨init, last, rfl⟩
  · exact Nat.le_refl _
  · rw [List.concat_eq_append, dropEmpty_snoc, dots, dots, List.dropLast_concat, List.dropLast_concat]
    exact List.filter_sublist.count_le ['.']

/-- behind the first slash, no piece but the last is empty after a pass -/
theorem tight_tidy (p : Pieces) : Tight (tidy p).rest :=
  tight_dropEmpty _

/-- a pass leaves at most half of the load -/
theorem load_tidy {p : Pieces} (h : Tight p.rest) : 2 * load (tidy p).rest ≤ load p.rest := by
  obtain ⟨-, hparents⟩ := halves_dropParents p.first h
  have hdots := halves_dropDots (dropParents p.first p.rest).rest
  have hempty := dots_dropEmpty_le (dropDots (dropParents p.first p.rest).rest)
  have hsublist : (tidy p).rest.tail.Sublist (dropParents p.first p.rest).rest.tail :=
    ((dropEmpty_sublist _).trans (dropDots_sublist _)).tail
  have hkept := parents_le_of_sublist hsublist
  have hload : load (tidy p).rest = parents (tidy p).rest.tail +
      2 * dots (dropEmpty (dropDots (dropParents p.first p.rest).rest)) := rfl
  omega

/-- where there is nothing to take out, a pass changes nothing -/
theorem tidy_of_load_eq_zero {p : Pieces} (h : Tight p.rest) (hload : load p.rest = 0) : tidy p = p := by
  obtain ⟨hparents, hdots⟩ : parents p.rest.tail = 0 ∧ dots p.rest = 0 := by
    unfold load at hload
    omega
  have hnoParent : ∀ s ∈ p.rest.tail, startsWithParent s = false := by
    simpa [parents, List.countP_eq_zero] using hparents
  have hnoDot : ∀ s ∈ p.rest.dropLast, s ≠ ['.'] := by
    intro s hs hdot
    exact List.count_eq_zero.1 hdots (hdot ▸ hs)
  simp only [tidy, dropParents_of_no_parent p.first hnoParent, dropDots_of_dropLast hnoDot, dropEmpty_of_tight h]

/-! ## Many passes -/

theorem settle_eq_iterate (n : Nat) (p : Pieces) : settle n p = tidy^[n] p := by
  induction n generalizing p with
  | zero => rfl
  | succ n ih => rw [settle_succ, ih, Function.iterate_succ_apply]

theorem tight_iterate {p : Pieces} (h : Tight p.rest) (n : Nat) : Tight (tidy^[n] p).rest := by
  induction n generalizing p with
  | zero => exact h
  | succ n ih => exact ih (tight_tidy p)

theorem load_iterate {p : Pieces} (h : Tight p.rest) (n : Nat) : 2 ^ n * load (tidy^[n] p).rest ≤ load p.rest := by
  induction n generalizing p with
  | zero => simp
  | succ n ih =>
    calc 2 ^ (n + 1) * load (tidy^[n + 1] p).rest
      _ = 2 * (2 ^ n * load (tidy^[n] (tidy p)).rest) := by rw [Function.iterate_succ_apply]; ring
      _ ≤ 2 * load (tidy p).rest := Nat.mul_le_mul_left 2 (ih (tight_tidy p))
      _ ≤ load p.rest := load_tidy h

/-! ## The first load -/

theorem length_rest_split (isSep : Char → Bool) (s : List Char) : (split isSep s).rest.length ≤ s.length := by
  induction s with
  | nil => simp
  | cons c cs ih =>
    cases hc : isSep c with
    | true => simpa [split_cons_sep hc, Pieces.toList] using ih
    | false =>
      rw [split_cons_other hc]
      exact Nat.le_succ_of_le ih

theorem length_dropParents (before : List Char) (rest : List (List Char)) :
    (dropParents before rest).rest.length ≤ rest.length := by
  fun_induction dropParents before rest with
  | case1 before => exact Nat.le_refl _
  | case2 before a => exact Nat.le_refl _
  | case3 before a b rest _ ih =>
    rw [List.length_cons, List.length_cons]
    omega
  | case4 before a b rest _ ih =>
    rw [List.length_cons] at ih
    simp only [Pieces.toList, List.length_cons]
    omega

theorem length_tidy (p : Pieces) : (tidy p).rest.length ≤ p.rest.length :=
  calc (tidy p).rest.length
    _ ≤ (dropParents p.first p.rest).rest.length := ((dropEmpty_sublist _).trans (dropDots_sublist _)).length_le
    _ ≤ p.rest.length := length_dropParents p.first p.rest

theorem load_le (segs : List (List Char)) : load segs ≤ 3 * segs.length := by
  have hparents : parents segs.tail ≤ segs.length :=
    Nat.le_trans List.countP_le_length (List.tail_sublist segs).length_le
  have hdots : dots segs ≤ segs.length := Nat.le_trans List.count_le_length (List.dropLast_sublist segs).length_le
  unfold load
  omega

/-- a path needs no more passes than it takes to halve thrice its length away, and one -/
theorem tidy_iterate_of_length {path : List Char} {n : Nat} (h : 3 * path.length < 2 ^ n) :
    tidy (tidy^[n + 1] (split isSlash path)) = tidy^[n + 1] (split isSlash path) := by
  let p := tidy (split isSlash path)
  have htight : Tight p.rest := tight_tidy _
  have hlength : p.rest.length ≤ path.length :=
    Nat.le_trans (length_tidy (split isSlash path)) (length_rest_split isSlash path)
  have hload : load (tidy^[n] p).rest = 0 := by
    by_contra hpos
    have hsmall : 2 ^ n * load (tidy^[n] p).rest < 2 ^ n * 1 :=
      calc 2 ^ n * load (tidy^[n] p).rest
        _ ≤ load p.rest := load_iterate htight n
        _ ≤ 3 * p.rest.length := load_le p.rest
        _ ≤ 3 * path.length := Nat.mul_le_mul_left 3 hlength
        _ < 2 ^ n * 1 := by rwa [Nat.mul_one]
    have hlt := Nat.lt_of_mul_lt_mul_left hsmall
    omega
  rw [Function.iterate_succ_apply]
  exact tidy_of_load_eq_zero (tight_iterate htight n) hload

/-! ## Texts -/

/-- one pass over a text -/
def pass (path : List Char) : List Char :=
  (tidy (split isSlash path)).join '/'

theorem pass_join {p : Pieces} (h : ∀ s ∈ p.toList, Whole s) : pass (p.join '/') = (tidy p).join '/' := by
  rw [pass, split_join isSlash_slash h]

theorem iterate_pass (path : List Char) (n : Nat) : pass^[n] path = (tidy^[n] (split isSlash path)).join '/' := by
  have hjoin : ∀ p : Pieces, (∀ s ∈ p.toList, Whole s) → pass^[n] (p.join '/') = (tidy^[n] p).join '/' := by
    induction n with
    | zero => exact fun p _ => rfl
    | succ n ih =>
      intro p hp
      rw [Function.iterate_succ_apply, Function.iterate_succ_apply, pass_join hp]
      exact ih (tidy p) (tidy_forall hp)
  have hpath : (split isSlash path).join '/' = path := join_split '/' path
  rw [← hjoin _ fun _ hs _ hc => not_sep_of_mem_split hs hc, hpath]

/-- any 34 passes or more lead to the same pieces, which no pass changes -/
theorem settle_of_length {path : List Char} (h : path.length < 2 ^ 31) {n : Nat} (hn : 34 ≤ n) :
    settle n (split isSlash path) = tidy^[34] (split isSlash path) ∧
      tidy (settle n (split isSlash path)) = settle n (split isSlash path) := by
  have hfixed : tidy (tidy^[34] (split isSlash path)) = tidy^[34] (split isSlash path) :=
    tidy_iterate_of_length (n := 33) (by omega)
  obtain ⟨m, rfl⟩ : ∃ m, n = m + 34 := ⟨n - 34, by omega⟩
  have hsettle : settle (m + 34) (split isSlash path) = tidy^[34] (split isSlash path) := by
    rw [settle_eq_iterate, Function.iterate_add_apply, Function.iterate_fixed hfixed]
  exact ⟨hsettle, by rw [hsettle, hfixed]⟩

theorem normalize_eq_join (path : List Char) :
    let left := (settle maxPasses (split isSlash path)).join '/'
    normalize path = if left.head? = some '/' then left else '/' :: left := by
  intro left
  unfold normalize
  split
  · rename_i rest hrooted
    have hleft : left = '/' :: rest := hrooted
    rw [hleft, List.head?_cons, if_pos rfl]
  · rename_i hrelative
    have hhead : left.head? ≠ some '/' := by
      intro hhead
      obtain ⟨rest, hrest⟩ := List.head?_eq_some_iff.1 hhead
      exact hrelative rest hrest
    rw [if_neg hhead]

/--
**The passes suffice.** The text that is left of a path of fewer than 2 ^ 31 characters when the passes end is one that
another pass does not change. Fewer than `maxPasses` passes come to it, and a higher bound would lead to the same text. It
is what the path resolves to, but for the slash that it may lack at its start.
-/
theorem passes_suffice (path cwd : String) (h : (spelled path.toList cwd.toList).length < 2 ^ 31) :
    let start := spelled path.toList cwd.toList
    let left := (settle maxPasses (split isSlash start)).join '/'
    pass left = left ∧ (∃ k, k < maxPasses ∧ left = pass^[k] start) ∧
      (∀ n, maxPasses ≤ n → (settle n (split isSlash start)).join '/' = left) ∧
      (path ≠ "" → resolve (some path) cwd =
        String.ofList (if left.head? = some '/' then left else '/' :: left)) := by
  intro start left
  have henough : 34 ≤ maxPasses := by decide
  obtain ⟨hsettle, hfixed⟩ := settle_of_length h henough
  refine ⟨?_, ⟨34, by decide, ?_⟩, ?_, ?_⟩
  · calc pass left
      _ = (tidy (settle maxPasses (split isSlash start))).join '/' := pass_join (whole_settle start)
      _ = left := by rw [hfixed]
  · rw [iterate_pass, ← hsettle]
  · intro n hn
    obtain ⟨hmore, -⟩ := settle_of_length h (Nat.le_trans henough hn)
    rw [hmore, ← hsettle]
  · intro hne
    rw [resolve_of_ne_empty hne, normalize_eq_join]

/-- a run of dots that loses every second one in each pass, and dots that are glued to new parents -/
theorem passes_suffice_dots :
    (spelled "./././././././..././x/../..../b".toList "/a".toList).length < 2 ^ 31 ∧
      pass "../b".toList = "../b".toList ∧
      resolve (some "./././././././..././x/../..../b") "/a" = "/../b" := by
  have hlength : (spelled "./././././././..././x/../..../b".toList "/a".toList).length < 2 ^ 31 := by decide
  have hleft : (settle maxPasses (split isSlash
      (spelled "./././././././..././x/../..../b".toList "/a".toList))).join '/' = "../b".toList := by decide +kernel
  obtain ⟨hpass, -, -, hresolve⟩ := passes_suffice "./././././././..././x/../..../b" "/a" hlength
  rw [hleft] at hpass hresolve
  exact ⟨hlength, hpass, hresolve (by decide)⟩

end PageShell.Path
