/-
Segments of one dot.

Between two slashes a dot is dropped. A pass leaves some of them, every second one of a run, so it takes several passes
until they are gone, but what a pass leaves are always the same names and the same last piece (`iterate_sweep`). That piece
is never dropped, whatever it is. So a path without parents leads through its names without the dots, except that a dot
behind the last slash is one more name (`segments_resolve_dots`).
-/
import Mathlib.Data.List.Count
import PageShell.Proofs.Path.Halving

namespace PageShell.Path

open Text

/-! ## Passes over names and dots -/

/-- what a pass does where no segment starts with two dots -/
def sweep (segs : List (List Char)) : List (List Char) :=
  dropEmpty (dropDots segs)

/-- the segments that name something -/
def named (segs : List (List Char)) : List (List Char) :=
  (segs.filter (!·.isEmpty)).filter (· ≠ ['.'])

theorem sweep_sublist (segs : List (List Char)) : (sweep segs).Sublist segs :=
  (dropEmpty_sublist _).trans (dropDots_sublist segs)

theorem filter_dropDots {p : List Char → Bool} (hp : p ['.'] = false) (segs : List (List Char)) :
    (dropDots segs).filter p = segs.filter p := by
  induction segs using dropDots.induct with
  | case1 => rfl
  | case2 a => rfl
  | case3 b rest ih => simp [dropDots, List.filter_cons, hp, ih]
  | case4 a b rest ha ih => rw [dropDots, if_neg ha, List.filter_cons, List.filter_cons, ih]

theorem named_sweep (segs : List (List Char)) : named (sweep segs) = named segs := by
  rw [named, sweep, filter_dropEmpty, List.filter_filter, filter_dropDots (by simp), ← List.filter_filter, named]

theorem getLast?_dropDots (segs : List (List Char)) : (dropDots segs).getLast? = segs.getLast? := by
  induction segs using dropDots.induct with
  | case1 => rfl
  | case2 a => rfl
  | case3 b rest ih => simp [dropDots, List.getLast?_cons, ih]
  | case4 a b rest ha ih => rw [dropDots, if_neg ha, List.getLast?_cons, List.getLast?_cons, ih]

theorem getLast?_sweep (segs : List (List Char)) : (sweep segs).getLast? = segs.getLast? := by
  rw [sweep, ← getLast?_dropDots segs]
  rcases List.eq_nil_or_concat (dropDots segs) with h | ⟨init, last, h⟩
  · rw [h]
    rfl
  · rw [h, List.concat_eq_append, dropEmpty_snoc, List.getLast?_concat, List.getLast?_concat]

theorem dots_sweep (segs : List (List Char)) : 2 * dots (sweep segs) ≤ dots segs :=
  calc 2 * dots (sweep segs)
    _ ≤ 2 * dots (dropDots segs) := Nat.mul_le_mul_left 2 (dots_dropEmpty_le (dropDots segs))
    _ ≤ dots segs := halves_dropDots segs

/-- any number of passes keep the names and the last piece, and halve the dots each time -/
theorem iterate_sweep (n : Nat) (segs : List (List Char)) :
    named (sweep^[n] segs) = named segs ∧ (sweep^[n] segs).getLast? = segs.getLast? ∧
      2 ^ n * dots (sweep^[n] segs) ≤ dots segs := by
  induction n generalizing segs with
  | zero => simp
  | succ n ih =>
    obtain ⟨hnamed, hlast, hdots⟩ := ih (sweep segs)
    rw [Function.iterate_succ_apply]
    refine ⟨hnamed.trans (named_sweep segs), hlast.trans (getLast?_sweep segs), ?_⟩
    calc 2 ^ (n + 1) * dots (sweep^[n] (sweep segs))
      _ = 2 * (2 ^ n * dots (sweep^[n] (sweep segs))) := by ring
      _ ≤ 2 * dots (sweep segs) := Nat.mul_le_mul_left 2 hdots
      _ ≤ dots segs := dots_sweep segs

theorem tidy_of_no_parent (first : List Char) {rest : List (List Char)} (h : ∀ s ∈ rest, startsWithParent s = false) :
    tidy ⟨first, rest⟩ = ⟨first, sweep rest⟩ := by
  simp only [tidy, dropParents_of_no_parent first fun s hs => h s (List.mem_of_mem_tail hs), sweep]

theorem settle_of_no_parent (n : Nat) (first : List Char) {rest : List (List Char)}
    (h : ∀ s ∈ rest, startsWithParent s = false) : settle n ⟨first, rest⟩ = ⟨first, sweep^[n] rest⟩ := by
  induction n generalizing rest with
  | zero => rfl
  | succ n ih =>
    rw [settle_succ, tidy_of_no_parent first h, ih fun s hs => h s ((sweep_sublist rest).subset hs),
      Function.iterate_succ_apply]

theorem named_append (a b : List (List Char)) : named (a ++ b) = named a ++ named b := by
  simp [named]

theorem named_eq_filter {segs : List (List Char)} (h : ['.'] ∉ segs) : named segs = segs.filter (!·.isEmpty) := by
  apply List.filter_eq_self.2
  intro s hs
  have hne : s ≠ ['.'] := fun heq => h (heq ▸ (List.mem_filter.1 hs).1)
  simpa using hne

/-- where no dot is left but perhaps at the end, the segments are the names and that dot -/
theorem filter_of_dots_eq_zero {segs : List (List Char)} (h : dots segs = 0) :
    segs.filter (!·.isEmpty) = named segs ++ if segs.getLast? = some ['.'] then [['.']] else [] := by
  rcases List.eq_nil_or_concat segs with rfl | ⟨init, last, rfl⟩
  · rfl
  · rw [List.concat_eq_append] at h ⊢
    have hinit : ['.'] ∉ init := by simpa [dots, List.count_eq_zero] using h
    rw [named_append, named_eq_filter hinit, List.filter_append, List.getLast?_concat, List.append_assoc]
    by_cases hdot : last = ['.']
    · rw [hdot]
      rfl
    · have hlast : ['.'] ∉ [last] := fun hmem => hdot (List.mem_singleton.1 hmem).symm
      rw [named_eq_filter hlast, if_neg (by simpa using hdot), List.append_nil]

/-! ## Paths -/

/-- what stands behind the last slash of a path is one dot -/
def EndsInDot (path : String) : Prop :=
  (cutAfterLast isSlash path.toList).2 = ['.']

instance (path : String) : Decidable (EndsInDot path) := inferInstanceAs (Decidable (_ = _))

example : EndsInDot "a/." ∧ EndsInDot "." ∧ ¬EndsInDot "a/./" ∧ ¬EndsInDot "./b" := by decide

/-- a path without parents leads through its names, and through the dot behind its last slash -/
theorem fields_normalize_dots {path : List Char} (hroot : path.head? = some '/')
    (h : ∀ s ∈ fields isSlash path, startsWithParent s = false) (hcount : (fields isSlash path).count ['.'] < 2 ^ 64) :
    fields isSlash (normalize path) = (fields isSlash path).filter (· ≠ ['.']) ++
      if (cutAfterLast isSlash path).2 = ['.'] then [['.']] else [] := by
  obtain ⟨segs, hne, hsplit⟩ := exists_split_of_head hroot
  have hfields : fields isSlash path = segs.filter (!·.isEmpty) := by
    rw [fields, hsplit]
    rfl
  have hparents : ∀ s ∈ segs, startsWithParent s = false := by
    intro s hs
    by_cases hempty : s = []
    · rw [hempty]
      rfl
    · exact h s (hfields ▸ List.mem_filter.2 ⟨hs, by simpa using hempty⟩)
  obtain ⟨hnamed, hlast, hdots⟩ := iterate_sweep maxPasses segs
  have hdone : dots (sweep^[maxPasses] segs) = 0 := by
    have hfew : 2 ^ maxPasses * dots (sweep^[maxPasses] segs) < 2 ^ maxPasses * 1 :=
      calc 2 ^ maxPasses * dots (sweep^[maxPasses] segs)
        _ ≤ dots segs := hdots
        _ ≤ segs.count ['.'] := (List.dropLast_sublist segs).count_le ['.']
        _ = (fields isSlash path).count ['.'] := by rw [hfields, List.count_filter (by rfl)]
        _ < 2 ^ maxPasses * 1 := hcount
    have hzero := Nat.lt_of_mul_lt_mul_left hfew
    omega
  have hsame : segs.getLast? = some (cutAfterLast isSlash path).2 := by
    rw [← getLast?_split, hsplit, Pieces.toList, List.getLast?_cons, List.getLast?_eq_some_getLast hne]
    rfl
  rw [normalize_eq_spell, fields_spell (whole_of_mem_rooted (whole_settle path)), filter_rooted, hsplit,
    settle_of_no_parent maxPasses [] hparents, Pieces.toList, List.filter_cons_of_neg (by simp),
    filter_of_dots_eq_zero hdone, hnamed, hlast, hsame, named, ← hfields]
  simp only [Option.some.injEq]

theorem startsWithParent_fields {path : String} (h : ∀ n ∈ segments path, startsWithParent n.toList = false) :
    ∀ s ∈ fields isSlash path.toList, startsWithParent s = false := by
  intro s hs
  simpa using h (String.ofList s) (List.mem_map_of_mem hs)

/-- the segments of a path are names -/
theorem isName_of_mem_segments {path n : String} (h : n ∈ segments path) : isName n = true := by
  obtain ⟨s, hs, rfl⟩ := List.mem_map.1 h
  obtain ⟨hmem, hne⟩ := List.mem_filter.1 hs
  rw [isName_iff, String.toList_ofList]
  exact ⟨by simpa using hne, fun c hc => not_sep_of_mem_split hmem hc⟩

theorem segments_absolute (names : List String) : segments (absolute names) = segments ("/".intercalate names) := by
  have htext : (absolute names).toList = [] ++ '/' :: ("/".intercalate names).toList := by
    simp [absolute]
  rw [segments, htext, fields_append_sep isSlash_slash, segments, fields_nil, List.nil_append]

/-- the path without its segments of one dot -/
def withoutDots (path : String) : String :=
  let names := (segments path).filter (· ≠ ".")
  if FromRoot path then absolute names else "/".intercalate names

example : withoutDots "./a/././b/." = "a/b" ∧ withoutDots "/./" = "/" ∧ withoutDots "././" = "" := by decide

theorem segments_withoutDots (path : String) : segments (withoutDots path) = (segments path).filter (· ≠ ".") := by
  have hnames : ∀ n ∈ (segments path).filter (· ≠ "."), isName n = true := fun n hn =>
    isName_of_mem_segments (List.mem_filter.1 hn).1
  have hsegments := segments_of_spells (Or.inl rfl) hnames
  unfold withoutDots
  dsimp only
  split_ifs
  · exact hsegments
  · rw [← segments_absolute, hsegments]

theorem not_fromRoot_intercalate {names : List String} (h : ∀ n ∈ names, isName n = true) :
    ¬FromRoot ("/".intercalate names) := by
  cases names with
  | nil => decide
  | cons n rest =>
    obtain ⟨hne, hwhole⟩ := isName_iff.1 (h n List.mem_cons_self)
    obtain ⟨c, cs, hn⟩ := List.exists_cons_of_ne_nil hne
    have hc : isSlash c = false := hwhole c (by simp [hn])
    intro hroot
    have hhead : some c = some '/' := by
      simpa [FromRoot, String.toList_intercalate, intercalate_slash, hn] using hroot
    rw [Option.some.inj hhead] at hc
    cases hc

theorem fromRoot_withoutDots (path : String) : FromRoot (withoutDots path) ↔ FromRoot path := by
  unfold withoutDots
  dsimp only
  split_ifs with h
  · exact iff_of_true (by simp [FromRoot, absolute]) h
  · exact iff_of_false (not_fromRoot_intercalate fun n hn => isName_of_mem_segments (List.mem_filter.1 hn).1) h

/-! ## Resolving -/

theorem fields_spelled (path cwd : String) : fields isSlash (spelled path.toList cwd.toList) =
    (if FromRoot path then [] else fields isSlash cwd.toList) ++ fields isSlash path.toList := by
  split_ifs with h
  · rw [spelled_fromRoot h, List.nil_append]
  · rw [spelled_relative h, fields_append_sep isSlash_slash]

theorem cutAfterLast_spelled (path cwd : String) :
    (cutAfterLast isSlash (spelled path.toList cwd.toList)).2 = (cutAfterLast isSlash path.toList).2 := by
  by_cases h : FromRoot path
  · rw [spelled_fromRoot h]
  · rw [spelled_relative h, snd_cutAfterLast_append_sep isSlash_slash]

section Resolve

variable {path cwd : String}

theorem count_dot_segments (path : String) : (segments path).count "." = (fields isSlash path.toList).count ['.'] :=
  List.count_map_of_injective _ String.ofList (fun _ _ => String.ofList_inj.1) ['.']

theorem filter_dot_segments (path : String) :
    (segments path).filter (· ≠ ".") = ((fields isSlash path.toList).filter (· ≠ ['.'])).map String.ofList := by
  rw [segments, List.filter_map]
  congr 1
  apply List.filter_congr
  intro s hs
  have hdot : String.ofList s = "." ↔ s = ['.'] := @String.ofList_inj s ['.']
  simp [hdot]

/-- the dots that a path adds to a working directory without dots are dropped, but not one behind its last slash -/
theorem fields_normalize_spelled (hcwd : FromRoot cwd) (hnames : ∀ n ∈ segments cwd, Inert n.toList)
    (hpath : ∀ n ∈ segments path, startsWithParent n.toList = false) (hcount : (segments path).count "." < 2 ^ 64) :
    fields isSlash (normalize (spelled path.toList cwd.toList)) =
      (if FromRoot path then [] else fields isSlash cwd.toList) ++ (fields isSlash path.toList).filter (· ≠ ['.']) ++
        if EndsInDot path then [['.']] else [] := by
  let base := if FromRoot path then [] else fields isSlash cwd.toList
  have hfields : fields isSlash (spelled path.toList cwd.toList) = base ++ fields isSlash path.toList :=
    fields_spelled path cwd
  have hbase : ∀ s ∈ base, Inert s := by
    intro s hs
    by_cases hroot : FromRoot path
    · simp [base, hroot] at hs
    · exact inert_fields hnames s (by simpa [base, hroot] using hs)
  have hparents : ∀ s ∈ base ++ fields isSlash path.toList, startsWithParent s = false := by
    intro s hs
    rcases List.mem_append.1 hs with hs | hs
    · exact (hbase s hs).2
    · exact startsWithParent_fields hpath s hs
  have hfew : (base ++ fields isSlash path.toList).count ['.'] < 2 ^ 64 := by
    have hnone : base.count ['.'] = 0 := List.count_eq_zero.2 fun hdot => (hbase _ hdot).1 rfl
    rwa [List.count_append, hnone, Nat.zero_add, ← count_dot_segments]
  have hkept : base.filter (· ≠ ['.']) = base := List.filter_eq_self.2 fun s hs => decide_eq_true (hbase s hs).1
  rw [← hfields] at hparents hfew
  rw [fields_normalize_dots (head?_spelled path hcwd) hparents hfew, hfields, cutAfterLast_spelled, List.filter_append,
    hkept]
  rfl

/--
A path of names and dots leads through its names, behind those of the working directory if it does not start at the root.
A dot behind its last slash is one more name.
-/
theorem segments_resolve_dots (hcwd : FromRoot cwd) (hnames : ∀ n ∈ segments cwd, Inert n.toList)
    (hpath : ∀ n ∈ segments path, startsWithParent n.toList = false) (hcount : (segments path).count "." < 2 ^ 64) :
    segments (resolve (some path) cwd) = (if FromRoot path then [] else segments cwd) ++
      (segments path).filter (· ≠ ".") ++ if EndsInDot path then ["."] else [] := by
  by_cases hempty : path = ""
  · subst hempty
    have hroot : ¬FromRoot "" := by decide
    have hdot : ¬EndsInDot "" := by decide
    rw [resolve_empty, if_neg hroot, if_neg hdot]
    simp [segments]
  · rw [resolve_of_ne_empty hempty, segments, String.toList_ofList, fields_normalize_spelled hcwd hnames hpath hcount,
      List.map_append, List.map_append, ← filter_dot_segments, apply_ite (List.map String.ofList),
      apply_ite (List.map String.ofList)]
    rfl

/-- without its dots, a path leads through the same names -/
theorem segments_resolve_withoutDots (hnames : ∀ n ∈ segments cwd, Inert n.toList)
    (hpath : ∀ n ∈ segments path, startsWithParent n.toList = false) :
    segments (resolve (some (withoutDots path)) cwd) =
      (if FromRoot path then [] else segments cwd) ++ (segments path).filter (· ≠ ".") := by
  have hinert : ∀ n ∈ segments (withoutDots path), Inert n.toList := by
    intro n hn
    rw [segments_withoutDots] at hn
    obtain ⟨hmem, hdot⟩ := List.mem_filter.1 hn
    refine ⟨?_, hpath n hmem⟩
    intro heq
    exact of_decide_eq_true hdot (String.toList_inj.1 heq)
  rw [segments_resolve hnames hinert, segments_withoutDots, if_congr (fromRoot_withoutDots path) rfl rfl]
  split_ifs <;> rfl

end Resolve

end PageShell.Path
