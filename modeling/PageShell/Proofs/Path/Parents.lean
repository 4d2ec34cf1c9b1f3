/-
What two dots take back.

Read one by one, each `..` of a path takes back the last name that is left before it; `walk?` says what is left at the
end. A pass does not read them one by one. It pairs each segment with a `..` right behind it and takes both out, and the
segment may be a `..` itself (`collapse`). Pairs of a name and a `..` can be taken out in any order (`walk?_cancel`), but
a pair of two `..` takes back two names fewer. So a path that never climbs above the root keeps at least the names that
are left, and keeps just these unless three `..` come to stand in a row (`iterate_collapse_eq_iff`).
-/
import Mathlib.Data.List.Basic
import PageShell.Proofs.Path.Halving

namespace PageShell.Path

/-! ## Taking back one by one -/

/-- one segment further: `..` takes back the last name, if there is one -/
def follow? (left : List String) (seg : String) : Option (List String) :=
  if seg = ".." then if left = [] then none else some left.dropLast else some (left ++ [seg])

/-- the names that are left when each `..` takes back the last name before it; none if a `..` finds no name -/
def walk? (segs : List String) : Option (List String) :=
  segs.foldlM follow? []

example : walk? ["a", "b", "..", "..", "c"] = some ["c"] := by decide

theorem follow?_parent (left : List String) (name : String) : follow? (left ++ [name]) ".." = some left := by
  simp [follow?]

theorem follow?_name (left : List String) {name : String} (h : name ≠ "..") : follow? left name = some (left ++ [name]) := by
  simp [follow?, h]

theorem foldlM_follow?_cons {left : List String} {seg : String} {segs : List String} :
    (seg :: segs).foldlM follow? left = (follow? left seg).bind (segs.foldlM follow?) := rfl

/-- a name that is taken back at once makes no difference -/
theorem foldlM_follow?_pair (left : List String) {name : String} (h : name ≠ "..") (segs : List String) :
    (name :: ".." :: segs).foldlM follow? left = segs.foldlM follow? left := by
  rw [foldlM_follow?_cons, follow?_name left h, Option.bind_some, foldlM_follow?_cons, follow?_parent, Option.bind_some]

/-- names are all left -/
theorem foldlM_follow?_names (left : List String) {names : List String} (h : ".." ∉ names) :
    names.foldlM follow? left = some (left ++ names) := by
  induction names generalizing left with
  | nil => simp
  | cons n names ih =>
    obtain ⟨hn, hnames⟩ := not_or.1 (mt List.mem_cons.2 h)
    rw [foldlM_follow?_cons, follow?_name left (Ne.symm hn), Option.bind_some, ih _ hnames]
    simp

theorem walk?_names {names : List String} (h : ".." ∉ names) : walk? names = some names :=
  foldlM_follow?_names [] h

theorem dropLast_sublist_dropLast {left more : List String} (h : left.Sublist more) :
    left.dropLast.Sublist more.dropLast := by
  have hreverse := h.reverse.tail
  rw [List.tail_reverse, List.tail_reverse] at hreverse
  exact List.reverse_sublist.1 hreverse

/-- with more names before it, a path has more names left -/
theorem foldlM_follow?_mono {left more : List String} (hmore : left.Sublist more) {segs out : List String}
    (h : segs.foldlM follow? left = some out) : ∃ out', segs.foldlM follow? more = some out' ∧ out.Sublist out' := by
  induction segs generalizing left more with
  | nil =>
    obtain rfl : left = out := by simpa using h
    exact ⟨more, rfl, hmore⟩
  | cons seg segs ih =>
    rw [foldlM_follow?_cons] at h
    by_cases hseg : seg = ".."
    · subst hseg
      by_cases hleft : left = []
      · simp [follow?, hleft] at h
      · have hne : more ≠ [] := by
          rintro rfl
          exact hleft (List.sublist_nil.1 hmore)
        obtain ⟨out', hout', hsub⟩ := ih (dropLast_sublist_dropLast hmore) (by simpa [follow?, hleft] using h)
        exact ⟨out', by simpa [foldlM_follow?_cons, follow?, hne] using hout', hsub⟩
    · rw [follow?_name left hseg, Option.bind_some] at h
      obtain ⟨out', hout', hsub⟩ := ih (hmore.append (List.Sublist.refl [seg])) h
      exact ⟨out', by rw [foldlM_follow?_cons, follow?_name more hseg, Option.bind_some, hout'], hsub⟩

/-- each name adds one to what is left, and each `..` takes one away -/
theorem length_foldlM_follow? {left segs out : List String} (h : segs.foldlM follow? left = some out) :
    out.length + 2 * segs.count ".." = left.length + segs.length := by
  induction segs generalizing left with
  | nil =>
    obtain rfl : left = out := by simpa using h
    simp
  | cons seg segs ih =>
    rw [foldlM_follow?_cons] at h
    by_cases hseg : seg = ".."
    · subst hseg
      by_cases hleft : left = []
      · simp [follow?, hleft] at h
      · have hrest : segs.foldlM follow? left.dropLast = some out := by simpa [follow?, hleft] using h
        have hlength := ih hrest
        have hpos := List.length_pos_iff.2 hleft
        rw [List.length_dropLast] at hlength
        rw [List.count_cons_self, List.length_cons]
        omega
    · rw [follow?_name left hseg, Option.bind_some] at h
      have hlength := ih h
      rw [List.length_append, List.length_singleton] at hlength
      rw [List.count_cons_of_ne hseg, List.length_cons]
      omega

/-! ## Taking out pairs -/

/-- take out each segment that `..` stands right behind, and that `..` -/
def collapse : List String → List String
  | [] => []
  | [a] => [a]
  | a :: b :: rest => if b = ".." then collapse rest else a :: collapse (b :: rest)

/-- take out each name that `..` stands right behind, and that `..` -/
def cancel : List String → List String
  | [] => []
  | [a] => [a]
  | a :: b :: rest => if a ≠ ".." ∧ b = ".." then cancel rest else a :: cancel (b :: rest)

/-- three `..` stand in a row -/
def Crowded (segs : List String) : Prop :=
  ["..", "..", ".."] <:+: segs

instance (segs : List String) : Decidable (Crowded segs) := inferInstanceAs (Decidable (_ <:+: _))

theorem collapse_sublist (segs : List String) : (collapse segs).Sublist segs := by
  fun_induction collapse segs with
  | case1 => exact List.Sublist.refl []
  | case2 a => exact List.Sublist.refl [a]
  | case3 a rest ih => exact (ih.cons "..").cons a
  | case4 a b rest _ ih => exact ih.cons_cons a

theorem collapse_names {names : List String} (h : ".." ∉ names) : collapse names = names := by
  fun_induction collapse names with
  | case1 => rfl
  | case2 a => rfl
  | case3 a rest ih => exact absurd (by simp) h
  | case4 a b rest _ ih => rw [ih fun hb => h (List.mem_cons_of_mem a hb)]

/-- pairs of a name and a `..` do not matter to what is left -/
theorem foldlM_cancel (left segs : List String) :
    (cancel segs).foldlM follow? left = segs.foldlM follow? left := by
  fun_induction cancel segs generalizing left with
  | case1 => rfl
  | case2 a => rfl
  | case3 a b rest hpair ih =>
    obtain ⟨ha, rfl⟩ := hpair
    rw [ih, foldlM_follow?_pair left ha]
  | case4 a b rest _ ih =>
    have hrest : (cancel (b :: rest)).foldlM follow? = (b :: rest).foldlM follow? := funext ih
    rw [foldlM_follow?_cons, hrest, ← foldlM_follow?_cons]

theorem walk?_cancel (segs : List String) : walk? (cancel segs) = walk? segs :=
  foldlM_cancel [] segs

/-- whatever pairs are taken out, no name is lost that is left when they are read one by one -/
theorem foldlM_collapse {left segs out : List String} (h : segs.foldlM follow? left = some out) :
    ∃ out', (collapse segs).foldlM follow? left = some out' ∧ out.Sublist out' := by
  fun_induction collapse segs generalizing left out with
  | case1 => exact ⟨out, h, List.Sublist.refl out⟩
  | case2 a => exact ⟨out, h, List.Sublist.refl out⟩
  | case3 a rest ih =>
    by_cases ha : a = ".."
    · -- the pair takes back two names; without it there are more left to go on with
      subst ha
      obtain ⟨once, honce, h⟩ := Option.bind_eq_some_iff.1 h
      obtain ⟨twice, htwice, h⟩ := Option.bind_eq_some_iff.1 h
      have hback : ∀ {l m : List String}, follow? l ".." = some m → m.Sublist l := by
        intro l m hm
        by_cases hl : l = []
        · simp [follow?, hl] at hm
        · obtain rfl : l.dropLast = m := by simpa [follow?, hl] using hm
          exact List.dropLast_sublist l
      obtain ⟨mid, hmid, hsub⟩ := foldlM_follow?_mono ((hback htwice).trans (hback honce)) h
      obtain ⟨out', hout', hsub'⟩ := ih hmid
      exact ⟨out', hout', hsub.trans hsub'⟩
    · rw [foldlM_follow?_pair left ha] at h
      exact ih h
  | case4 a b rest hb ih =>
    obtain ⟨mid, hmid, h⟩ := Option.bind_eq_some_iff.1 h
    obtain ⟨out', hout', hsub⟩ := ih h
    exact ⟨out', by rw [foldlM_follow?_cons, hmid, Option.bind_some, hout'], hsub⟩

theorem walk?_collapse {segs out : List String} (h : walk? segs = some out) :
    ∃ out', walk? (collapse segs) = some out' ∧ out.Sublist out' :=
  foldlM_collapse h

/-! ## Where the two differ -/

/-- a pair of two `..` is taken out: two stand at the start, or three stand in a row -/
def PairsParents (segs : List String) : Prop :=
  ["..", ".."] <+: segs ∨ Crowded segs

theorem pairsParents_cons_name {a : String} (ha : a ≠ "..") (segs : List String) :
    PairsParents (a :: segs) ↔ Crowded segs := by
  have hstart : ∀ l, ¬(".." :: l) <+: a :: segs := fun l h => ha (List.cons_prefix_cons.1 h).1.symm
  simp [PairsParents, Crowded, List.infix_cons_iff, hstart]

theorem crowded_cons_parent (segs : List String) : Crowded (".." :: segs) ↔ PairsParents segs := by
  simp [PairsParents, Crowded, List.infix_cons_iff]

theorem pairsParents_cons_cons_name (a : String) {b : String} (hb : b ≠ "..") (segs : List String) :
    PairsParents (a :: b :: segs) ↔ PairsParents (b :: segs) := by
  simp [PairsParents, Crowded, List.infix_cons_iff, Ne.symm hb]

/-- where no two `..` are paired, a pass takes out pairs of a name and a `..` alone -/
theorem collapse_eq_cancel {segs : List String} (h : ¬PairsParents segs) : collapse segs = cancel segs := by
  fun_induction collapse segs with
  | case1 => rfl
  | case2 a => rfl
  | case3 a rest ih =>
    have ha : a ≠ ".." := by
      rintro rfl
      exact h (Or.inl ⟨rest, rfl⟩)
    rw [pairsParents_cons_name ha, crowded_cons_parent] at h
    rw [cancel, if_pos ⟨ha, rfl⟩, ih h]
  | case4 a b rest hb ih =>
    rw [pairsParents_cons_cons_name a hb] at h
    rw [cancel, if_neg fun hpair => hb hpair.2, ih h]

/-- taking out pairs never lowers how many more names than `..` there are -/
theorem length_collapse (segs : List String) :
    segs.length + 2 * (collapse segs).count ".." ≤ (collapse segs).length + 2 * segs.count ".." := by
  fun_induction collapse segs with
  | case1 => simp
  | case2 a => simp
  | case3 a rest ih =>
    simp only [List.length_cons, List.count_cons, beq_self_eq_true, if_true]
    omega
  | case4 a b rest hb ih =>
    simp only [List.length_cons, List.count_cons (a := "..") (b := a)] at ih ⊢
    omega

/-- a pair of two `..` leaves more names for each `..` than there were -/
theorem length_collapse_of_pairsParents {segs : List String} (h : PairsParents segs) :
    segs.length + 2 * (collapse segs).count ".." < (collapse segs).length + 2 * segs.count ".." := by
  fun_induction collapse segs with
  | case1 => simp [PairsParents, Crowded] at h
  | case2 a => simp [PairsParents, Crowded, List.infix_cons_iff] at h
  | case3 a rest ih =>
    have hrest := length_collapse rest
    by_cases ha : a = ".."
    · simp only [ha, List.length_cons, List.count_cons_self]
      omega
    · have hlt := ih (by rwa [pairsParents_cons_name ha, crowded_cons_parent] at h)
      rw [List.count_cons_of_ne ha, List.count_cons_self, List.length_cons, List.length_cons]
      omega
  | case4 a b rest hb ih =>
    have hlt := ih ((pairsParents_cons_cons_name a hb rest).1 h)
    simp only [List.length_cons, List.count_cons (a := "..") (b := a)] at hlt ⊢
    omega

/-! ## Many passes -/

section Passes

variable {segs left : List String}

/-- a path that does not climb above the root pairs two `..` only if three stand in a row -/
theorem pairsParents_iff_of_walk? (h : walk? segs = some left) : PairsParents segs ↔ Crowded segs := by
  constructor
  · rintro (⟨rest, rfl⟩ | hcrowded)
    · cases h
    · exact hcrowded
  · exact Or.inr

theorem walk?_iterate_collapse (h : walk? segs = some left) (n : Nat) :
    ∃ out, walk? (collapse^[n] segs) = some out ∧ left.Sublist out := by
  induction n generalizing segs left with
  | zero => exact ⟨left, h, List.Sublist.refl left⟩
  | succ n ih =>
    obtain ⟨mid, hmid, hsub⟩ := walk?_collapse h
    obtain ⟨out, hout, hsub'⟩ := ih hmid
    exact ⟨out, hout, hsub.trans hsub'⟩

theorem iterate_collapse_sublist (n : Nat) (segs : List String) : (collapse^[n] segs).Sublist segs := by
  induction n generalizing segs with
  | zero => exact List.Sublist.refl segs
  | succ n ih => exact (ih (collapse segs)).trans (collapse_sublist segs)

theorem walk?_iterate_cancel (h : walk? segs = some left) (n : Nat) : walk? (cancel^[n] segs) = some left := by
  induction n generalizing segs with
  | zero => exact h
  | succ n ih => exact ih ((walk?_cancel segs).trans h)

/-- up to the first pass that meets three `..` in a row, passes take out pairs of a name and a `..` alone -/
theorem iterate_collapse_eq_cancel (h : walk? segs = some left) {n : Nat}
    (hfree : ∀ i < n, ¬Crowded (cancel^[i] segs)) : collapse^[n] segs = cancel^[n] segs := by
  induction n with
  | zero => rfl
  | succ n ih =>
    have hlast : ¬PairsParents (cancel^[n] segs) := by
      rw [pairsParents_iff_of_walk? (walk?_iterate_cancel h n)]
      exact hfree n (Nat.lt_succ_self n)
    rw [Function.iterate_succ_apply', Function.iterate_succ_apply', ih fun i hi => hfree i (Nat.lt_succ_of_lt hi),
      collapse_eq_cancel hlast]

/-- a pass over three `..` in a row takes back fewer names than there are `..` -/
theorem walk?_collapse_of_crowded (h : walk? segs = some left) (hcrowded : Crowded segs) :
    ∃ out, walk? (collapse segs) = some out ∧ left.length < out.length := by
  obtain ⟨out, hout, -⟩ := walk?_collapse h
  have hbefore := length_foldlM_follow? h
  have hafter := length_foldlM_follow? hout
  have hpairs := length_collapse_of_pairsParents ((pairsParents_iff_of_walk? h).2 hcrowded)
  refine ⟨out, hout, ?_⟩
  simp only [List.length_nil] at hbefore hafter
  omega

/-- passes that leave no `..` come to the names that are left just if they never meet three `..` in a row -/
theorem iterate_collapse_eq_iff (h : walk? segs = some left) {n : Nat} (hdone : ".." ∉ collapse^[n] segs) :
    collapse^[n] segs = left ↔ ∀ i, ¬Crowded (cancel^[i] segs) := by
  have hwalk := walk?_names hdone
  constructor
  · intro heq
    by_contra hsome
    obtain ⟨k, hk, hfirst⟩ : ∃ k, Crowded (cancel^[k] segs) ∧ ∀ i < k, ¬Crowded (cancel^[i] segs) := by
      have hex : ∃ k, Crowded (cancel^[k] segs) := not_forall_not.1 hsome
      exact ⟨Nat.find hex, Nat.find_spec hex, fun i hi => Nat.find_min hex hi⟩
    have hsame := iterate_collapse_eq_cancel h hfirst
    rcases Nat.lt_or_ge k n with hlt | hge
    · -- the passes from there on keep a name that is not left
      obtain ⟨m, rfl⟩ : ∃ m, n = m + (k + 1) := ⟨n - (k + 1), by omega⟩
      obtain ⟨more, hmore, hlonger⟩ := walk?_collapse_of_crowded (walk?_iterate_cancel h k) hk
      obtain ⟨out, hout, hsub⟩ := walk?_iterate_collapse hmore m
      have hend : collapse^[m] (collapse (cancel^[k] segs)) = left := by
        rw [← heq, Function.iterate_add_apply, Function.iterate_succ_apply', hsame]
      rw [heq] at hwalk
      rw [hend, hwalk, Option.some.injEq] at hout
      have hlength := hsub.length_le
      rw [← hout] at hlength
      omega
    · -- no `..` is left by then
      obtain ⟨m, rfl⟩ : ∃ m, k = m + n := ⟨k - n, by omega⟩
      rw [Function.iterate_add_apply, Function.iterate_fixed (collapse_names hdone)] at hsame
      rw [← hsame] at hk
      exact hdone (hk.subset List.mem_cons_self)
  · intro hfree
    rw [iterate_collapse_eq_cancel h fun i _ => hfree i] at hwalk ⊢
    rw [walk?_iterate_cancel h n, Option.some.injEq] at hwalk
    exact hwalk.symm

end Passes

/-! ## Paths of names and parents -/

/-- an ordinary name, or `..` -/
def NameOrParent (s : String) : Prop :=
  OrdinaryName s ∨ s = ".."

instance (s : String) : Decidable (NameOrParent s) := inferInstanceAs (Decidable (_ ∨ _))

theorem NameOrParent.ordinary {s : String} (h : NameOrParent s) (hne : s ≠ "..") : OrdinaryName s :=
  h.resolve_right hne

theorem NameOrParent.spec {s : String} (h : NameOrParent s) :
    s.toList ≠ [] ∧ Whole s.toList ∧ s.toList ≠ ['.'] ∧ (startsWithParent s.toList = true → s = "..") := by
  rcases h with ⟨hname, hdot, hparent⟩ | rfl
  · obtain ⟨hne, hwhole⟩ := isName_iff.1 hname
    exact ⟨hne, hwhole, hdot, fun h => absurd h (by simp [hparent])⟩
  · decide

/-- a pass pairs segments with `..` -/
theorem dropParents_segments (before : List Char) {segs : List String} (h : ∀ s ∈ segs, NameOrParent s) :
    dropParents before (segs.map String.toList) = ⟨before, (collapse segs).map String.toList⟩ := by
  fun_induction collapse segs generalizing before with
  | case1 => rfl
  | case2 a => rfl
  | case3 a rest ih =>
    obtain ⟨hne, -⟩ := (h a List.mem_cons_self).spec
    have hrest := ih before fun s hs => h s (by simp [hs])
    simpa [dropParents, startsWithParent, hne] using hrest
  | case4 a b rest hb ih =>
    obtain ⟨-, -, -, hparent⟩ := (h b (by simp)).spec
    have hkeep : startsWithParent b.toList = false := by simpa using mt hparent hb
    have hrest := ih a.toList fun s hs => h s (List.mem_cons_of_mem a hs)
    rw [List.map_cons, List.map_cons, dropParents, hkeep, Bool.and_false, if_neg Bool.false_ne_true, ← List.map_cons, hrest]
    rfl

theorem tidy_segments {segs : List String} (h : ∀ s ∈ segs, NameOrParent s) :
    tidy ⟨[], segs.map String.toList⟩ = ⟨[], (collapse segs).map String.toList⟩ := by
  have hall : ∀ s ∈ (collapse segs).map String.toList, s ≠ ['.'] ∧ s ≠ [] := by
    intro s hs
    obtain ⟨t, ht, rfl⟩ := List.mem_map.1 hs
    obtain ⟨hne, -, hdot, -⟩ := (h t ((collapse_sublist segs).subset ht)).spec
    exact ⟨hdot, hne⟩
  simp only [tidy, dropParents_segments [] h, dropDots_of_no_dot fun s hs => (hall s hs).1,
    dropEmpty_of_ne_nil fun s hs => (hall s hs).2]

theorem nameOrParent_iterate {segs : List String} (h : ∀ s ∈ segs, NameOrParent s) (n : Nat) :
    ∀ s ∈ collapse^[n] segs, NameOrParent s := by
  induction n generalizing segs with
  | zero => exact h
  | succ n ih => exact ih fun s hs => h s ((collapse_sublist segs).subset hs)

theorem iterate_tidy_segments {segs : List String} (h : ∀ s ∈ segs, NameOrParent s) (n : Nat) :
    tidy^[n] ⟨[], segs.map String.toList⟩ = ⟨[], (collapse^[n] segs).map String.toList⟩ := by
  induction n with
  | zero => rfl
  | succ n ih =>
    rw [Function.iterate_succ_apply', ih, tidy_segments (nameOrParent_iterate h n), Function.iterate_succ_apply']

/-- normalizing a path of names and parents is making pass after pass over its segments -/
theorem normalize_absolute {segs : List String} (h : ∀ s ∈ segs, NameOrParent s) :
    normalize (absolute segs).toList = (absolute (collapse^[maxPasses] segs)).toList := by
  by_cases hne : segs = []
  · rw [hne, Function.iterate_fixed (show collapse [] = [] from rfl)]
    decide
  · have hwhole : ∀ s ∈ segs.map String.toList, Whole s := by
      intro s hs
      obtain ⟨t, ht, rfl⟩ := List.mem_map.1 hs
      exact (h t ht).spec.2.1
    rw [toList_absolute hne, normalize_spell hwhole, settle_eq_iterate, iterate_tidy_segments h, absolute_eq_rooted]

/-- what there is to take out of such a path is the `..` behind its first segment -/
theorem load_segments {segs : List String} (h : ∀ s ∈ segs, NameOrParent s) :
    load (segs.map String.toList) = segs.tail.count ".." := by
  have hdots : dots (segs.map String.toList) = 0 := by
    refine List.count_eq_zero.2 fun hmem => ?_
    obtain ⟨s, hs, hdot⟩ := List.mem_map.1 ((List.dropLast_sublist _).subset hmem)
    exact (h s hs).spec.2.2.1 hdot
  have hparents : parents (segs.tail.map String.toList) = segs.tail.count ".." := by
    rw [parents, List.countP_map]
    refine List.countP_congr fun s hs => ?_
    obtain ⟨-, -, -, hparent⟩ := (h s (List.mem_of_mem_tail hs)).spec
    constructor
    · exact fun hstart => beq_iff_eq.2 (hparent hstart)
    · intro heq
      rw [beq_iff_eq.1 heq]
      rfl
  rw [load, hdots, ← List.map_tail, hparents, Nat.mul_zero, Nat.add_zero]

/-- the passes that are made leave no `..` in a path that does not climb above the root -/
theorem parent_not_mem_iterate {segs left : List String} (h : ∀ s ∈ segs, NameOrParent s) (hwalk : walk? segs = some left)
    (hlength : segs.length < 2 ^ 64) : ".." ∉ collapse^[maxPasses] segs := by
  have htight : Tight (segs.map String.toList) := by
    intro s hs
    obtain ⟨t, ht, rfl⟩ := List.mem_map.1 ((List.dropLast_sublist _).subset hs)
    exact (h t ht).spec.1
  have hload : 2 ^ 64 * (collapse^[maxPasses] segs).tail.count ".." < 2 ^ 64 * 1 :=
    calc 2 ^ 64 * (collapse^[maxPasses] segs).tail.count ".."
      _ = 2 ^ maxPasses * load (tidy^[maxPasses] ⟨[], segs.map String.toList⟩).rest := by
        rw [iterate_tidy_segments h, load_segments (nameOrParent_iterate h maxPasses), maxPasses]
      _ ≤ load (segs.map String.toList) := load_iterate htight maxPasses
      _ = segs.tail.count ".." := load_segments h
      _ ≤ segs.length := Nat.le_trans List.count_le_length (List.tail_sublist segs).length_le
      _ < 2 ^ 64 * 1 := by rwa [Nat.mul_one]
  have hnone : ".." ∉ (collapse^[maxPasses] segs).tail := by
    have hzero := Nat.lt_of_mul_lt_mul_left hload
    exact List.count_eq_zero.1 (by omega)
  obtain ⟨out, hout, -⟩ := walk?_iterate_collapse hwalk maxPasses
  cases hend : collapse^[maxPasses] segs with
  | nil => exact List.not_mem_nil
  | cons s rest =>
    rw [hend] at hnone hout
    intro hmem
    rcases List.mem_cons.1 hmem with rfl | hmem
    · -- a `..` at the start finds no name to take back
      cases hout
    · exact hnone hmem

theorem absolute_ne_empty (segs : List String) : absolute segs ≠ "" := by
  simp [absolute]

theorem fromRoot_absolute (segs : List String) : FromRoot (absolute segs) := by
  simp [FromRoot, absolute]

theorem resolve_segments {segs : List String} (h : ∀ s ∈ segs, NameOrParent s) (cwd : String) :
    resolve (some (absolute segs)) cwd = absolute (collapse^[maxPasses] segs) := by
  rw [resolve_of_ne_empty (absolute_ne_empty segs), spelled_fromRoot (fromRoot_absolute segs), normalize_absolute h,
    String.ofList_toList]

/-! ## Several levels up -/

/-- the operand of several levels up -/
def up (levels : Nat) : String :=
  "/".intercalate (List.replicate levels "..")

theorem toList_up {levels : Nat} (h : 0 < levels) : '/' :: (up levels).toList = spell (List.replicate levels parent) := by
  obtain ⟨n, rfl⟩ := Nat.exists_eq_succ_of_ne_zero h.ne'
  simp [up, List.replicate_succ, String.toList_intercalate, intercalate_slash, spell, parent]

theorem up_relative {levels : Nat} (h : 0 < levels) : up levels ≠ "" ∧ ¬FromRoot (up levels) := by
  have htext := toList_up h
  obtain ⟨n, rfl⟩ := Nat.exists_eq_succ_of_ne_zero h.ne'
  have hhead : (up (n + 1)).toList = parent ++ spell (List.replicate n parent) := by
    simpa [List.replicate_succ, spell] using htext
  constructor
  · intro hempty
    simp [hempty, parent] at hhead
  · simp [FromRoot, hhead, parent]

/-- the first `..` behind names takes back the last of them -/
theorem collapse_append_parent {init : List String} {last : String} (h : ".." ∉ init ++ [last]) (segs : List String) :
    collapse (init ++ last :: ".." :: segs) = init ++ collapse segs := by
  induction init with
  | nil => rfl
  | cons n init ih =>
    obtain ⟨m, more, hm, hne⟩ : ∃ m more, init ++ last :: ".." :: segs = m :: more ∧ m ≠ ".." := by
      cases init with
      | nil => exact ⟨last, _, rfl, fun heq => h (by simp [heq])⟩
      | cons m init => exact ⟨m, _, rfl, fun heq => h (by simp [heq])⟩
    have hrest := ih fun hmem => h (List.mem_cons_of_mem n hmem)
    rw [List.cons_append, hm, collapse, if_neg hne, ← hm, hrest, List.cons_append]

/-- of a run of `..` all pairs go -/
theorem collapse_replicate (levels : Nat) : collapse (List.replicate levels "..") = List.replicate (levels % 2) ".." := by
  induction levels using Nat.twoStepInduction with
  | zero => rfl
  | one => rfl
  | more n ih _ =>
    rw [List.replicate_succ, List.replicate_succ, collapse, if_pos rfl, ih, Nat.add_mod_right]

/-- behind names, an odd number of `..` takes back one name, and an even one two -/
theorem iterate_collapse_up {names : List String} (h : ".." ∉ names) {levels : Nat} (hpos : 0 < levels)
    (hle : levels ≤ names.length) : collapse^[maxPasses] (names ++ List.replicate levels "..") =
      if levels % 2 = 1 then names.dropLast else names.dropLast.dropLast := by
  have hfixed : ∀ {l : List String} (n : Nat), ".." ∉ l → collapse^[n] l = l := fun n hl =>
    Function.iterate_fixed (collapse_names hl) n
  obtain ⟨n, rfl⟩ := Nat.exists_eq_succ_of_ne_zero hpos.ne'
  have hne : names ≠ [] := List.length_pos_iff.1 (Nat.lt_of_lt_of_le hpos hle)
  obtain ⟨init, last, rfl⟩ := (List.eq_nil_or_concat' names).resolve_left hne
  have hfirst : collapse (init ++ [last] ++ List.replicate (n + 1) "..") = init ++ List.replicate (n % 2) ".." := by
    rw [List.append_assoc, List.replicate_succ, List.singleton_append, collapse_append_parent h, collapse_replicate]
  rw [maxPasses, Function.iterate_succ_apply, hfirst]
  have hinit : ".." ∉ init := fun hmem => h (by simp [hmem])
  rcases Nat.mod_two_eq_zero_or_one n with hn | hn
  · rw [hn, List.replicate_zero, List.append_nil, hfixed _ hinit, if_pos (by omega), List.dropLast_concat]
  · obtain ⟨init', last', rfl⟩ : ∃ init' last', init = init' ++ [last'] := by
      rcases List.eq_nil_or_concat init with rfl | ⟨init', last', rfl⟩
      · simp at hle
        omega
      · exact ⟨init', last', List.concat_eq_append⟩
    have hsecond : collapse (init' ++ [last'] ++ List.replicate 1 "..") = init' := by
      rw [List.append_assoc]
      exact (collapse_append_parent hinit []).trans (List.append_nil init')
    rw [hn, Function.iterate_succ_apply, hsecond, hfixed _ fun hmem => hinit (by simp [hmem]), if_neg (by omega),
      List.dropLast_concat, List.dropLast_concat]

theorem dropParents_parents (before : List Char) (levels : Nat) :
    dropParents before (List.replicate levels parent) = ⟨before, List.replicate (levels % 2) parent⟩ := by
  induction levels using Nat.twoStepInduction with
  | zero => rfl
  | one => rfl
  | more n ih _ =>
    have hpair : dropParents before (parent :: parent :: List.replicate n parent) =
        dropParents (before ++ []) (List.replicate n parent) := rfl
    rw [List.replicate_succ, List.replicate_succ, hpair, List.append_nil, ih, Nat.add_mod_right]

/-- behind a slash at the end, the first of several `..` has nothing to take back either -/
theorem dropParents_empty_parents (before : List Char) {init : List (List Char)} (hinit : ∀ s ∈ init, Inert s)
    (levels : Nat) : dropParents before (init ++ [] :: List.replicate levels parent) =
      ⟨before, init ++ [] :: List.replicate (levels % 2) parent⟩ := by
  induction init generalizing before with
  | nil =>
    cases levels with
    | zero => rfl
    | succ n =>
      have hkeep : dropParents before ([] :: List.replicate (n + 1) parent) =
          ⟨before, (dropParents [] (List.replicate (n + 1) parent)).toList⟩ := rfl
      rw [List.nil_append, hkeep, dropParents_parents]
      rfl
  | cons a init ih =>
    obtain ⟨b, more, hb, hb'⟩ :
        ∃ b more, init ++ [] :: List.replicate levels parent = b :: more ∧ startsWithParent b = false := by
      cases init with
      | nil => exact ⟨[], _, rfl, rfl⟩
      | cons b init => exact ⟨b, _, rfl, (hinit b (by simp)).2⟩
    rw [List.cons_append, hb, dropParents, hb', Bool.and_false, ← hb,
      ih a fun s hs => hinit s (List.mem_cons_of_mem a hs)]
    rfl

/-- a pass over several `..` behind a slash does what it does over one or none -/
theorem settle_empty_parents (n : Nat) {init : List (List Char)} (hinit : ∀ s ∈ init, Inert s) (levels : Nat) :
    settle (n + 1) ⟨[], init ++ [] :: List.replicate levels parent⟩ =
      settle (n + 1) ⟨[], init ++ [] :: List.replicate (levels % 2) parent⟩ := by
  simp only [settle_succ, tidy, dropParents_empty_parents [] hinit, Nat.mod_mod]

theorem OrdinaryName.ne_parent {n : String} (h : OrdinaryName n) : n ≠ ".." := by
  rintro rfl
  exact absurd h (by decide)

/-- from a directory, an odd number of levels leads up by one, and an even one by two -/
theorem resolve_up {names : List String} (hnames : ∀ n ∈ names, OrdinaryName n) {levels : Nat} (hpos : 0 < levels)
    (hle : levels ≤ names.length) : resolve (some (up levels)) (absolute names) =
      absolute (if levels % 2 = 1 then names.dropLast else names.dropLast.dropLast) := by
  have hne : names ≠ [] := List.length_pos_iff.1 (Nat.lt_of_lt_of_le hpos hle)
  obtain ⟨hempty, hroot⟩ := up_relative hpos
  have htext : spelled (up levels).toList (absolute names).toList =
      (absolute (names ++ List.replicate levels "..")).toList := by
    rw [spelled_relative hroot, toList_up hpos, toList_absolute hne, toList_absolute (by simp [hne]), List.map_append,
      spell_append, List.map_replicate]
    rfl
  have hsegs : ∀ s ∈ names ++ List.replicate levels "..", NameOrParent s := by
    intro s hs
    rcases List.mem_append.1 hs with hs | hs
    · exact Or.inl (hnames s hs)
    · exact Or.inr (List.eq_of_mem_replicate hs)
  rw [resolve_of_ne_empty hempty, htext, normalize_absolute hsegs, String.ofList_toList,
    iterate_collapse_up (fun hmem => (hnames _ hmem).ne_parent rfl) hpos hle]

theorem spelled_up_slash {names : List String} (hne : names ≠ []) {levels : Nat} (hpos : 0 < levels) :
    spelled (up levels).toList (absolute names ++ "/").toList =
      spell (names.map String.toList ++ [] :: List.replicate levels parent) := by
  rw [spelled_relative (up_relative hpos).2, toList_up hpos, toList_absolute_slash hne, ← spell_append,
    List.append_assoc, List.singleton_append]

/-- a path of ordinary names keeps the slash behind it -/
theorem normalize_slash {names : List String} (hnames : ∀ n ∈ names, OrdinaryName n) (hne : names ≠ []) :
    normalize (spell (names.map String.toList ++ [[]])) = (absolute names ++ "/").toList := by
  have hinert : ∀ s ∈ names.map String.toList ++ [[]], Inert s := by
    simpa [or_imp, forall_and, inert_nil] using fun n hn => (hnames n hn).2
  have hwhole : ∀ s ∈ names.map String.toList ++ [[]], Whole s := by
    simpa [or_imp, forall_and, Whole] using fun n hn => (isName_iff.1 (hnames n hn).1).2
  have hfull : (names.map String.toList).filter (!·.isEmpty) = names.map String.toList := by
    simpa using fun n hn => (isName_iff.1 (hnames n hn).1).1
  have hsettle : settle maxPasses ⟨[], names.map String.toList ++ [[]]⟩ = ⟨[], names.map String.toList ++ [[]]⟩ := by
    rw [show settle maxPasses _ = _ from settle_of_inert 63 [] hinert, dropEmpty_snoc, hfull]
  rw [normalize_spell hwhole, hsettle, toList_absolute_slash hne]
  simp [rooted]

/-- from a directory with a slash behind it, an odd number of levels leads up by one, and an even one nowhere -/
theorem resolve_up_slash {names : List String} (hnames : ∀ n ∈ names, OrdinaryName n) {levels : Nat} (hpos : 0 < levels)
    (hne : names ≠ []) : resolve (some (up levels)) (absolute names ++ "/") =
      if levels % 2 = 1 then absolute names.dropLast else absolute names ++ "/" := by
  have hplain : ∀ s ∈ names.map String.toList, Whole s ∧ Inert s := by
    intro s hs
    obtain ⟨n, hn, rfl⟩ := List.mem_map.1 hs
    exact ⟨(isName_iff.1 (hnames n hn).1).2, (hnames n hn).2⟩
  have hwhole : ∀ n, ∀ s ∈ names.map String.toList ++ [] :: List.replicate n parent, Whole s := by
    intro n s hs
    rcases List.mem_append.1 hs with hs | hs
    · exact (hplain s hs).1
    · rcases List.mem_cons.1 hs with rfl | hs
      · simp [Whole]
      · exact List.eq_of_mem_replicate hs ▸ whole_parent
  have hparity : normalize (spelled (up levels).toList (absolute names ++ "/").toList) =
      normalize (spell (names.map String.toList ++ [] :: List.replicate (levels % 2) parent)) := by
    rw [spelled_up_slash hne hpos, normalize_spell (hwhole levels), normalize_spell (hwhole (levels % 2))]
    exact congrArg (fun p => spell (rooted p)) (settle_empty_parents 63 (fun s hs => (hplain s hs).2) levels)
  rw [resolve_of_ne_empty (up_relative hpos).1, hparity]
  rcases Nat.mod_two_eq_zero_or_one levels with h | h
  · rw [h, List.replicate_zero, normalize_slash hnames hne, String.ofList_toList, if_neg (by omega)]
  · obtain ⟨init, last, rfl⟩ := (List.eq_nil_or_concat' names).resolve_left hne
    have hone := resolve_parent (Or.inr ⟨hne, rfl⟩) hnames
    have hup : up 1 = ".." := by decide
    rw [h, ← spelled_up_slash hne Nat.one_pos, if_pos rfl, ← resolve_of_ne_empty (up_relative Nat.one_pos).1, hup, hone,
      List.dropLast_concat]

end PageShell.Path
