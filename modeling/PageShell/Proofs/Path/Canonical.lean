/-
What a resolved path looks like.

Where only `..` itself starts with two dots, the passes take segments out and never put two together. When they end there
is nothing left to take out, which says where an empty segment, a dot and two dots can still stand: the first two at the
end, the last at the start (`resolve_canonical`). Such paths are just the ones that resolving leaves as they are
(`canonical_iff_resolve_eq`).
-/
import PageShell.Proofs.Path.Fixpoints

namespace PageShell.Path

open Text

/-! ## Canonical paths -/

/-- what stands behind each slash of a path that starts with one, empty segments too -/
def pieces (path : String) : List String :=
  (split isSlash path.toList).rest.map String.ofList

/-- a path that starts with a slash, with no empty segment and no dot but at its end, and no two dots but at its start -/
structure Canonical (path : String) : Prop where
  fromRoot : FromRoot path
  empty : "" ∉ (pieces path).dropLast
  dot : "." ∉ (pieces path).dropLast
  parent : ".." ∉ (pieces path).tail

/-- the ordinary names on a path, in their order -/
def ordinaryNames (path : String) : List String :=
  (segments path).filter (OrdinaryName ·)

example : pieces "/../a/." = ["..", "a", "."] ∧ ordinaryNames "/../a/." = ["a"] := by decide

theorem pieces_spell {segs : List (List Char)} (h : ∀ s ∈ segs, Whole s) :
    pieces (String.ofList (spell segs)) = segs.map String.ofList := by
  have hsplit := split_append_spell [] h
  simp only [List.nil_append, split_nil] at hsplit
  rw [pieces, String.toList_ofList, hsplit]

/-- segments behind slashes that nothing is left to take out of spell a canonical path -/
theorem canonical_spell {segs : List (List Char)} (hne : segs ≠ []) (hwhole : ∀ s ∈ segs, Whole s) (htight : Tight segs)
    (hload : load segs = 0) : Canonical (String.ofList (spell segs)) := by
  obtain ⟨hparents, hdots⟩ := load_eq_zero_iff.1 hload
  have hpieces := pieces_spell hwhole
  constructor
  · obtain ⟨s, rest, rfl⟩ := List.exists_cons_of_ne_nil hne
    simp [FromRoot, spell]
  · rw [hpieces, ← List.map_dropLast]
    intro hmem
    obtain ⟨s, hs, hempty⟩ := List.mem_map.1 hmem
    exact htight s hs (String.ofList_inj.1 hempty)
  · rw [hpieces, ← List.map_dropLast]
    intro hmem
    obtain ⟨s, hs, hdot⟩ := List.mem_map.1 hmem
    obtain rfl : s = ['.'] := String.ofList_inj.1 hdot
    exact List.count_eq_zero.1 hdots hs
  · rw [hpieces, ← List.map_tail]
    intro hmem
    obtain ⟨s, hs, hparent⟩ := List.mem_map.1 hmem
    obtain rfl : s = Path.parent := String.ofList_inj.1 hparent
    exact List.countP_eq_zero.1 hparents _ hs rfl

/-- a canonical path is spelled by segments that nothing is left to take out of -/
theorem Canonical.exists_spell {path : String} (h : Canonical path) (hplain : PlainParents (fields isSlash path.toList)) :
    ∃ segs, path = String.ofList (spell segs) ∧ Resolved segs ∧ load segs = 0 := by
  obtain ⟨segs, hne, hsplit⟩ := exists_split_of_head h.fromRoot
  have hpieces : pieces path = segs.map String.ofList := by
    rw [pieces, hsplit]
  have hpath : path.toList = spell segs := by
    have hjoin : (split isSlash path.toList).join '/' = path.toList := join_split '/' path.toList
    rw [← hjoin, hsplit]
    rfl
  have hwhole : ∀ s ∈ segs, Whole s := by
    intro s hs c hc
    have hmem : s ∈ (split isSlash path.toList).toList := hsplit ▸ List.mem_cons_of_mem [] hs
    exact not_sep_of_mem_split hmem hc
  have htight : Tight segs := by
    rintro s hs rfl
    exact h.empty (hpieces ▸ List.map_dropLast ▸ List.mem_map.2 ⟨[], hs, rfl⟩)
  have hdots : dots segs = 0 := by
    apply List.count_eq_zero.2
    intro hdot
    exact h.dot (hpieces ▸ List.map_dropLast ▸ List.mem_map.2 ⟨['.'], hdot, rfl⟩)
  have hparents : parents segs.tail = 0 := by
    apply List.countP_eq_zero.2
    intro s hs hstart
    have hmem : s ∈ (split isSlash path.toList).rest := hsplit ▸ List.mem_of_mem_tail hs
    obtain rfl : s = Path.parent := hplain.of_fields s hmem hstart
    exact h.parent (hpieces ▸ List.map_tail ▸ List.mem_map.2 ⟨Path.parent, hs, rfl⟩)
  have hload : load segs = 0 := load_eq_zero_iff.2 ⟨hparents, hdots⟩
  exact ⟨segs, by rw [← hpath, String.ofList_toList], ⟨hne, hwhole, htight, load_tail_eq_zero hload⟩, hload⟩

/-! ## Resolved paths -/

/-- what is left of a path that starts with a slash is canonical -/
theorem canonical_normalize {path : List Char} (hfirst : (split isSlash path).first = [])
    (hplain : PlainParents (split isSlash path).rest) (hlength : path.length < 2 ^ 31) :
    Canonical (String.ofList (normalize path)) := by
  let p := settle maxPasses (split isSlash path)
  obtain ⟨htight, hload⟩ := load_settle hlength
  have hempty : p.first = [] := by
    rw [← hfirst]
    exact settle_of_plainParents maxPasses hplain
  have hwhole := whole_of_mem_rooted (whole_settle path)
  rw [normalize_eq_spell]
  by_cases hrest : p.rest = []
  · have hroot : rooted p = [[]] := by rw [rooted, if_pos hempty, if_pos hrest]
    rw [show rooted (settle maxPasses (split isSlash path)) = [[]] from hroot] at hwhole ⊢
    exact canonical_spell (by simp) hwhole (by simp [Tight]) rfl
  · have hroot : rooted p = p.rest := by rw [rooted, if_pos hempty, if_neg hrest]
    rw [show rooted (settle maxPasses (split isSlash path)) = p.rest from hroot] at hwhole ⊢
    exact canonical_spell hrest hwhole htight hload

/-- the segments that are left were there before, in the same order -/
theorem fields_normalize_sublist {path : List Char} (hplain : PlainParents (split isSlash path).rest) :
    (fields isSlash (normalize path)).Sublist (fields isSlash path) := by
  rw [normalize_eq_spell, fields_spell (whole_of_mem_rooted (whole_settle path)), filter_rooted, fields]
  apply List.Sublist.filter
  rw [Pieces.toList, Pieces.toList, settle_of_plainParents maxPasses hplain]
  exact (settle_sublist maxPasses hplain).cons_cons _

/-- the canonical paths are those that resolving leaves as they are -/
theorem canonical_iff_resolve_eq {path : String} (hroot : FromRoot path)
    (hplain : PlainParents (fields isSlash path.toList)) (hlength : path.toList.length < 2 ^ 31) (cwd : String) :
    Canonical path ↔ resolve (some path) cwd = path := by
  constructor
  · intro h
    obtain ⟨segs, rfl, hresolved, hload⟩ := h.exists_spell hplain
    rw [hresolved.resolve cwd, hresolved.normalize_of_load hload]
  · intro h
    have hne : path ≠ "" := by
      rintro rfl
      cases hroot
    have hspelled : spelled path.toList cwd.toList = path.toList := spelled_fromRoot hroot cwd.toList
    rw [resolve_of_ne_empty hne, hspelled] at h
    rw [← h]
    exact canonical_normalize (first_split_of_head hroot) hplain.of_fields hlength

/--
**The shape of a resolved path.** Let only `..` itself start with two dots in a path. What it resolves to starts with a
slash, has no empty segment but perhaps the last, has `.` only as its last segment and `..` only as its first, and its
ordinary names are some of those of the path, in their order.
-/
theorem resolve_canonical (path cwd : String) (hne : path ≠ "") (hcwd : FromRoot cwd)
    (hplain : PlainParents (fields isSlash (spelled path.toList cwd.toList)))
    (hlength : (spelled path.toList cwd.toList).length < 2 ^ 31) :
    Canonical (resolve (some path) cwd) ∧
      (ordinaryNames (resolve (some path) cwd)).Sublist
        (ordinaryNames (String.ofList (spelled path.toList cwd.toList))) := by
  have hfirst := first_split_spelled path hcwd
  rw [resolve_of_ne_empty hne]
  refine ⟨canonical_normalize hfirst hplain.of_fields hlength, ?_⟩
  apply List.Sublist.filter
  rw [segments, segments, String.toList_ofList, String.toList_ofList]
  exact (fields_normalize_sublist hplain.of_fields).map String.ofList

/-- two dots that stay at the start, a dot that stays at the end, and names taken out between them -/
theorem resolve_canonical_both_ends :
    let start := spelled ".//.././../a/../../b/c/.././.".toList "/x".toList
    FromRoot "/x" ∧ PlainParents (fields isSlash start) ∧ ordinaryNames (String.ofList start) = ["x", "a", "b", "c"] ∧
      resolve (some ".//.././../a/../../b/c/.././.") "/x" = "/../b/." ∧ Canonical "/../b/." ∧
      (ordinaryNames "/../b/.").Sublist ["x", "a", "b", "c"] := by
  intro start
  have hroot : FromRoot "/x" := by decide
  have hplain : PlainParents (fields isSlash start) := by
    unfold PlainParents
    decide +kernel
  have hnames : ordinaryNames (String.ofList start) = ["x", "a", "b", "c"] := by decide +kernel
  have hresolve : resolve (some ".//.././../a/../../b/c/.././.") "/x" = "/../b/." := by decide +kernel
  have hshape := resolve_canonical ".//.././../a/../../b/c/.././." "/x" (by decide) hroot hplain (by decide)
  rw [hresolve, hnames] at hshape
  exact ⟨hroot, hplain, hnames, hresolve, hshape⟩

end PageShell.Path
