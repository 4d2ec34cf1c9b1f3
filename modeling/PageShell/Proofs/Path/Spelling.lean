/-
Which segments a tidied path spells.

`spell` writes segments behind slashes, and what `normalize` gives is always such a text in which only the last segment
can be empty (`normalize_shape`). So a resolved path is the path of a chain of names, with a slash behind it or without
(`resolve_spells`). Three facts say how resolving treats names and parents:
- `resolve_append`: what stands behind a slash at the end of a path, and is inert, is carried along unchanged, so that
  a name can be put behind a path before it is resolved or afterwards (`resolve_append_name`);
- `segments_resolve`: a path of inert segments leads through exactly these, behind those of the working directory;
- `resolve_parent`: two dots take away the last name of the working directory.
-/
import Mathlib.Tactic.Common
import PageShell.Proofs.Path.Passes
import PageShell.Proofs.Text.Cuts

namespace PageShell.Path

open Text

/-! ## Segments behind slashes -/

/-- a text that no slash cuts -/
def Whole (s : List Char) : Prop :=
  ∀ c ∈ s, isSlash c = false

instance (s : List Char) : Decidable (Whole s) := List.decidableBAll _ s

theorem whole_iff {s : List Char} : Whole s ↔ '/' ∉ s := by
  simp [Whole, isSlash, List.forall_mem_ne']

/-- the text of segments, each behind a slash -/
def spell (segs : List (List Char)) : List Char :=
  segs.flatMap ('/' :: ·)

theorem isSlash_slash : isSlash '/' = true := rfl

theorem split_append_spell (d : List Char) {tail : List (List Char)} (h : ∀ s ∈ tail, Whole s) :
    split isSlash (d ++ spell tail) = ⟨(split isSlash d).first, (split isSlash d).rest ++ tail⟩ := by
  induction tail generalizing d with
  | nil => simp [spell]
  | cons s tail ih =>
    have hs : split isSlash s = ⟨s, []⟩ := split_of_none (h s List.mem_cons_self)
    have hspell : spell (s :: tail) = '/' :: (s ++ spell tail) := rfl
    rw [hspell, split_append_sep isSlash_slash, ih s fun t ht => h t (List.mem_cons_of_mem s ht), hs]
    rfl

theorem fields_spell {segs : List (List Char)} (h : ∀ s ∈ segs, Whole s) :
    fields isSlash (spell segs) = segs.filter (!·.isEmpty) := by
  have hsplit := split_append_spell [] h
  simp only [List.nil_append, split_nil] at hsplit
  simp [fields, hsplit, Pieces.toList]

theorem spell_append (a b : List (List Char)) : spell (a ++ b) = spell a ++ spell b :=
  List.flatMap_append

/-- a path is cut behind its last slash -/
theorem cutAfterLast_slash (d : String) {n : String} (h : Whole n.toList) :
    cutAfterLast isSlash (d ++ "/" ++ n).toList = ((d ++ "/").toList, n.toList) := by
  have htext : (d ++ "/" ++ n).toList = d.toList ++ '/' :: n.toList := by simp
  rw [htext, cutAfterLast_append_sep isSlash_slash d.toList h]
  simp

/-! ## What normalizing gives -/

/-- the segments behind the slash that a path made of these pieces gets at its start -/
def rooted (p : Pieces) : List (List Char) :=
  if p.first = [] then if p.rest = [] then [[]] else p.rest else p.first :: p.rest

theorem filter_rooted (p : Pieces) : (rooted p).filter (!·.isEmpty) = p.toList.filter (!·.isEmpty) := by
  unfold rooted
  split_ifs with hf hr
  · simp [Pieces.toList, hf, hr]
  · simp [Pieces.toList, hf]
  · rfl

theorem whole_of_mem_rooted {p : Pieces} (h : ∀ s ∈ p.toList, Whole s) : ∀ s ∈ rooted p, Whole s := by
  have hrest : ∀ s ∈ p.rest, Whole s := fun s hs => h s (List.mem_cons_of_mem p.first hs)
  unfold rooted
  split_ifs
  · simp [Whole]
  · exact hrest
  · exact h

theorem rooted_shape {p : Pieces}
    (h : p.rest = [] ∨ ∃ kept last, p.rest = kept ++ [last] ∧ ∀ s ∈ kept, s ≠ []) :
    ∃ kept last, rooted p = kept ++ [last] ∧ ∀ s ∈ kept, s ≠ [] := by
  by_cases hf : p.first = []
  · rcases h with hr | ⟨kept, last, hr, hne⟩
    · exact ⟨[], [], by simp [rooted, hf, hr], by simp⟩
    · exact ⟨kept, last, by simp [rooted, hf, hr], hne⟩
  · rcases h with hr | ⟨kept, last, hr, hne⟩
    · exact ⟨[], p.first, by simp [rooted, hf, hr], by simp⟩
    · refine ⟨p.first :: kept, last, by simp [rooted, hf, hr], ?_⟩
      intro s hs
      rcases List.mem_cons.1 hs with rfl | hs
      · exact hf
      · exact hne s hs

/-- passes never bring a slash into a segment -/
theorem whole_settle (path : List Char) : ∀ s ∈ (settle maxPasses (split isSlash path)).toList, Whole s :=
  settle_forall maxPasses fun _ hs _ hc => not_sep_of_mem_split hs hc

theorem normalize_eq_spell (path : List Char) :
    normalize path = spell (rooted (settle maxPasses (split isSlash path))) := by
  have hwhole := whole_settle path
  unfold normalize
  generalize settle maxPasses (split isSlash path) = p at hwhole ⊢
  obtain ⟨first, rest⟩ := p
  cases first with
  | nil => cases rest <;> rfl
  | cons c first =>
    have hc : c ≠ '/' := by
      rintro rfl
      exact absurd (hwhole ('/' :: first) List.mem_cons_self '/' List.mem_cons_self) (by decide)
    simp only [Pieces.join, List.cons_append, rooted, reduceCtorEq, if_false]
    split
    · rename_i rest' h
      exact absurd (List.cons.inj h).1 hc
    · rfl

/-- a normalized path is a list of segments of which only the last one can be empty -/
theorem normalize_shape (path : List Char) : ∃ kept last, normalize path = spell (kept ++ [last]) ∧
    (∀ s ∈ kept, s ≠ []) ∧ ∀ s ∈ kept ++ [last], Whole s := by
  have hwhole := whole_of_mem_rooted (whole_settle path)
  obtain ⟨kept, last, hroot, hne⟩ := rooted_shape (settle_shape 63 (split isSlash path))
  replace hroot : rooted (settle maxPasses (split isSlash path)) = kept ++ [last] := hroot
  exact ⟨kept, last, by rw [normalize_eq_spell, hroot], hne, hroot ▸ hwhole⟩

/-- a settled end of a path is carried along, whatever stands before it -/
theorem normalize_append (d : List Char) : ∃ head, ∀ tail, Settled tail → (∀ s ∈ tail, Whole s) →
    normalize (d ++ spell tail) = head ++ spell tail := by
  obtain ⟨first, rest, h⟩ := settle_append maxPasses (split isSlash d).first (split isSlash d).rest
  refine ⟨spell (if first = [] then rest else first :: rest), ?_⟩
  intro tail ht hw
  rw [normalize_eq_spell, split_append_spell d hw, h tail ht, ← spell_append]
  by_cases hf : first = [] <;> simp [rooted, hf, ht.ne_nil]

/-- a path of inert segments keeps them all -/
theorem fields_normalize {path : List Char} (h : ∀ s ∈ fields isSlash path, Inert s) :
    fields isSlash (normalize path) = fields isSlash path := by
  have hinert : ∀ s ∈ (split isSlash path).rest, Inert s := by
    intro s hs
    by_cases hne : s = []
    · exact hne ▸ inert_nil
    · exact h s (List.mem_filter.2 ⟨List.mem_cons_of_mem _ hs, by simpa using hne⟩)
  have hsettle : settle maxPasses (split isSlash path) = _ := settle_of_inert 63 (split isSlash path).first hinert
  rw [normalize_eq_spell, fields_spell (whole_of_mem_rooted (whole_settle path)), filter_rooted, hsettle]
  simp only [fields, Pieces.toList, List.filter_cons, filter_dropEmpty]

/-! ## Paths of names -/

/-- a name that resolving a path leaves alone -/
def OrdinaryName (n : String) : Prop :=
  isName n = true ∧ Inert n.toList

instance (n : String) : Decidable (OrdinaryName n) := inferInstanceAs (Decidable (_ ∧ _))

theorem isName_iff {n : String} : isName n = true ↔ n.toList ≠ [] ∧ Whole n.toList := by
  simp [isName, Whole]

theorem segments_name {n : String} (h : isName n = true) : segments n = [n] := by
  obtain ⟨hne, hwhole⟩ := isName_iff.1 h
  simp [segments, fields_of_none hwhole hne]

theorem segments_name_slash {n : String} (h : isName n = true) : segments (n ++ "/") = [n] := by
  have htext : (n ++ "/").toList = n.toList ++ '/' :: [] := by simp
  rw [segments, htext, fields_append_sep isSlash_slash, List.map_append]
  simpa [segments] using segments_name h

/-- a name that an operand ends with, as the completion of a file and of a directory writes it -/
theorem segments_entry {n suffix : String} (h : isName n = true) (hsuffix : suffix = "" ∨ suffix = "/") :
    segments (n ++ suffix) = [n] := by
  rcases hsuffix with rfl | rfl
  · rw [String.append_empty, segments_name h]
  · exact segments_name_slash h

/-- the path of a chain of names, with a slash behind it or without -/
def Spells (path : String) (names : List String) : Prop :=
  path = absolute names ∨ names ≠ [] ∧ path = absolute names ++ "/"

theorem intercalate_slash (s : List Char) (segs : List (List Char)) :
    ['/'].intercalate (s :: segs) = s ++ spell segs :=
  intercalate_toList '/' ⟨s, segs⟩

theorem toList_absolute {names : List String} (hne : names ≠ []) :
    (absolute names).toList = spell (names.map String.toList) := by
  obtain ⟨n, rest, rfl⟩ := List.exists_cons_of_ne_nil hne
  simp [absolute, String.toList_intercalate, intercalate_slash, spell]

theorem absolute_eq_rooted (names : List String) :
    (absolute names).toList = spell (rooted ⟨[], names.map String.toList⟩) := by
  by_cases hne : names = []
  · subst hne
    rfl
  · rw [toList_absolute hne]
    simp [rooted, hne]

theorem toList_absolute_slash {names : List String} (hne : names ≠ []) :
    (absolute names ++ "/").toList = spell (names.map String.toList ++ [[]]) := by
  rw [String.toList_append, toList_absolute hne, spell_append]
  rfl

/-- the path of a child of the directory that names lead to -/
theorem child_absolute {names : List String} (h : ∀ n ∈ names, isName n = true) (name : String) :
    child (absolute names) name = absolute (names ++ [name]) := by
  rw [← String.toList_inj, toList_absolute (by simp), List.map_append, spell_append]
  rcases List.eq_nil_or_concat names with rfl | ⟨init, last, rfl⟩
  · simp [child, absolute, spell, isSlash]
  · obtain ⟨hne, hwhole⟩ := isName_iff.1 (h last (by simp))
    obtain ⟨body, c, hlast⟩ := List.eq_nil_or_concat last.toList |>.resolve_left hne
    have hc : isSlash c = false := hwhole c (by simp [hlast])
    have hpath : (absolute (init ++ [last])).toList = spell (init.map String.toList) ++ '/' :: (body ++ [c]) := by
      rw [toList_absolute (by simp), List.map_append, spell_append, ← List.concat_eq_append, ← hlast]
      simp [spell]
    have htrim : (absolute (init ++ [last])).toList.reverse.dropWhile isSlash =
        (absolute (init ++ [last])).toList.reverse := by
      rw [hpath]
      simp [hc]
    rw [List.concat_eq_append, child, htrim, List.reverse_reverse, String.ofList_toList]
    rw [String.toList_append, String.toList_append, toList_absolute (by simp)]
    simp [spell]

theorem map_ofList_toList (names : List String) : (names.map String.toList).map String.ofList = names := by
  simp

/-- a path leads through the names that it spells -/
theorem segments_of_spells {path : String} {names : List String} (h : Spells path names)
    (hnames : ∀ n ∈ names, isName n = true) : segments path = names := by
  have hwhole : ∀ s ∈ names.map String.toList, Whole s := by
    rintro _ hs
    obtain ⟨n, hn, rfl⟩ := List.mem_map.1 hs
    exact (isName_iff.1 (hnames n hn)).2
  have hfilter : (names.map String.toList).filter (!·.isEmpty) = names.map String.toList := by
    refine List.filter_eq_self.2 ?_
    intro s hs
    obtain ⟨n, hn, rfl⟩ := List.mem_map.1 hs
    simpa using (isName_iff.1 (hnames n hn)).1
  by_cases hne : names = []
  · subst hne
    have hpath : path = "/" := by simpa [Spells, absolute] using h
    subst hpath
    rfl
  · rcases h with rfl | ⟨-, rfl⟩
    · rw [segments, toList_absolute hne, fields_spell hwhole, hfilter, map_ofList_toList]
    · have hwhole' : ∀ s ∈ names.map String.toList ++ [[]], Whole s := by
        intro s hs
        rcases List.mem_append.1 hs with hs | hs
        · exact hwhole s hs
        · rw [List.mem_singleton.1 hs]
          simp [Whole]
      rw [segments, toList_absolute_slash hne, fields_spell hwhole', List.filter_append, hfilter]
      simp

/-- segments of which only the last one can be empty spell a chain of names -/
theorem spells_spell {kept : List (List Char)} {last : List Char} (hne : ∀ s ∈ kept, s ≠ [])
    (hwhole : ∀ s ∈ kept ++ [last], Whole s) : ∃ names : List String,
    Spells (String.ofList (spell (kept ++ [last]))) names ∧ ∀ n ∈ names, isName n = true := by
  have hkept : ∀ n ∈ kept.map String.ofList, isName n = true := by
    intro n hn
    obtain ⟨s, hs, rfl⟩ := List.mem_map.1 hn
    exact isName_iff.2 (by simpa using ⟨hne s hs, hwhole s (List.mem_append_left _ hs)⟩)
  have hback : (kept.map String.ofList).map String.toList = kept := by simp
  by_cases hlast : last = []
  · subst hlast
    refine ⟨kept.map String.ofList, ?_, hkept⟩
    by_cases hk : kept = []
    · subst hk
      exact Or.inl rfl
    · have hk' : kept.map String.ofList ≠ [] := by simpa using hk
      refine Or.inr ⟨hk', String.toList_inj.1 ?_⟩
      rw [String.toList_ofList, toList_absolute_slash hk', hback]
  · refine ⟨kept.map String.ofList ++ [String.ofList last], Or.inl (String.toList_inj.1 ?_), ?_⟩
    · rw [String.toList_ofList, toList_absolute (by simp), List.map_append, hback]
      simp
    · intro n hn
      rcases List.mem_append.1 hn with hn | hn
      · exact hkept n hn
      · rw [List.mem_singleton.1 hn]
        exact isName_iff.2 (by simpa using ⟨hlast, hwhole last (by simp)⟩)

/-! ## Resolving -/

/-- a path that starts at the root, whatever the working directory -/
def FromRoot (path : String) : Prop :=
  path.toList.head? = some '/'

instance (path : String) : Decidable (FromRoot path) := inferInstanceAs (Decidable (_ = _))

theorem spelled_fromRoot {path : String} (h : FromRoot path) (cwd : List Char) :
    spelled path.toList cwd = path.toList := by
  obtain ⟨rest, hrest⟩ := List.head?_eq_some_iff.1 h
  rw [hrest]
  rfl

theorem spelled_relative {path : String} (h : ¬FromRoot path) (cwd : List Char) :
    spelled path.toList cwd = cwd ++ '/' :: path.toList := by
  unfold spelled
  split
  · rename_i rest hrest
    exact absurd (by rw [FromRoot, hrest]; rfl) h
  · rfl

/-- behind the slash that a path starts with there is a segment, if only an empty one -/
theorem exists_split_of_head {path : List Char} (h : path.head? = some '/') :
    ∃ segs, segs ≠ [] ∧ split isSlash path = ⟨[], segs⟩ := by
  obtain ⟨rest, rfl⟩ := List.head?_eq_some_iff.1 h
  exact ⟨(split isSlash rest).toList, by simp [Pieces.toList], split_cons_sep isSlash_slash rest⟩

/-- from a working directory that starts at the root, so does every path -/
theorem head?_spelled (path : String) {cwd : String} (h : FromRoot cwd) :
    (spelled path.toList cwd.toList).head? = some '/' := by
  by_cases hpath : FromRoot path
  · rw [spelled_fromRoot hpath]
    exact hpath
  · obtain ⟨rest, hrest⟩ := List.head?_eq_some_iff.1 h
    rw [spelled_relative hpath, hrest]
    rfl

theorem resolve_empty (cwd : String) : resolve (some "") cwd = cwd := rfl

theorem resolve_of_ne_empty {path : String} (h : path ≠ "") (cwd : String) :
    resolve (some path) cwd = String.ofList (normalize (spelled path.toList cwd.toList)) := by
  simp [resolve, h]

/-- a path that is not empty resolves to the path of a chain of names -/
theorem resolve_spells {path : String} (h : path ≠ "") (cwd : String) : ∃ names : List String,
    Spells (resolve (some path) cwd) names ∧ ∀ n ∈ names, isName n = true := by
  obtain ⟨kept, last, hshape, hne, hwhole⟩ := normalize_shape (spelled path.toList cwd.toList)
  rw [resolve_of_ne_empty h, hshape]
  exact spells_spell hne hwhole

theorem inert_fields {path : String} (h : ∀ n ∈ segments path, Inert n.toList) :
    ∀ s ∈ fields isSlash path.toList, Inert s := by
  intro s hs
  simpa using h (String.ofList s) (List.mem_map_of_mem hs)

/-- a path of inert segments leads through exactly these, behind those of the working directory -/
theorem segments_resolve {path cwd : String} (hcwd : ∀ n ∈ segments cwd, Inert n.toList)
    (hpath : ∀ n ∈ segments path, Inert n.toList) :
    segments (resolve (some path) cwd) =
      if FromRoot path then segments path else segments cwd ++ segments path := by
  by_cases hempty : path = ""
  · subst hempty
    have hroot : ¬FromRoot "" := by decide
    rw [resolve_empty, if_neg hroot]
    simp [segments]
  rw [resolve_of_ne_empty hempty, segments, String.toList_ofList]
  by_cases hroot : FromRoot path
  · rw [if_pos hroot, spelled_fromRoot hroot, fields_normalize (inert_fields hpath), segments]
  · have hboth : ∀ s ∈ fields isSlash (cwd.toList ++ '/' :: path.toList), Inert s := by
      intro s hs
      rw [fields_append_sep isSlash_slash] at hs
      rcases List.mem_append.1 hs with hs | hs
      · exact inert_fields hcwd s hs
      · exact inert_fields hpath s hs
    rw [if_neg hroot, spelled_relative hroot, fields_normalize hboth, fields_append_sep isSlash_slash, List.map_append]
    rfl

/-- a text that passes leave as it is wherever it stands behind a slash -/
def Carried (t : String) : Prop :=
  Settled (split isSlash t.toList).toList

theorem carried_empty : Carried "" where
  ne_nil := by simp [Pieces.toList]
  inert := by simpa [Pieces.toList] using inert_nil
  dropEmpty_eq := rfl

theorem carried_name {n : String} (h : OrdinaryName n) : Carried n := by
  rw [Carried, split_of_none (isName_iff.1 h.1).2]
  exact ⟨by simp [Pieces.toList], by simpa [Pieces.toList] using h.2, rfl⟩

theorem carried_name_slash {n : String} (h : OrdinaryName n) : Carried (n ++ "/") := by
  obtain ⟨hne, hwhole⟩ := isName_iff.1 h.1
  have htext : (n ++ "/").toList = n.toList ++ '/' :: [] := by simp
  rw [Carried, htext, split_append_sep isSlash_slash, split_of_none hwhole]
  refine ⟨by simp [Pieces.toList], ?_, by simp [Pieces.toList, dropEmpty, hne]⟩
  simpa [Pieces.toList] using And.intro h.2 inert_nil

/-- a path and what is carried along behind it are resolved apart, whatever the path and the working directory are -/
theorem resolve_append (d cwd : String) : ∃ path : String, ∀ t, Carried t →
    resolve (some (d ++ "/" ++ t)) cwd = path ++ "/" ++ t := by
  obtain ⟨start, hstart⟩ : ∃ start, ∀ rest, spelled (d.toList ++ '/' :: rest) cwd.toList = start ++ '/' :: rest := by
    cases hd : d.toList with
    | nil => exact ⟨[], fun rest => rfl⟩
    | cons c cs =>
      by_cases hc : c = '/'
      · exact ⟨c :: cs, fun rest => by subst hc; rfl⟩
      · refine ⟨cwd.toList ++ '/' :: c :: cs, ?_⟩
        intro rest
        simp only [List.cons_append, spelled, List.append_assoc]
        split
        · rename_i rest' h
          exact absurd (List.cons.inj h).1 hc
        · rfl
  obtain ⟨head, hhead⟩ := normalize_append start
  refine ⟨String.ofList head, ?_⟩
  intro t ht
  have hwhole : ∀ s ∈ (split isSlash t.toList).toList, Whole s := fun s hs c hc => not_sep_of_mem_split hs hc
  have hspell : spell (split isSlash t.toList).toList = '/' :: t.toList := congrArg ('/' :: ·) (join_split '/' t.toList)
  have htext : (d ++ "/" ++ t).toList = d.toList ++ '/' :: t.toList := by simp
  have hne : d ++ "/" ++ t ≠ "" := by
    intro h
    rw [h] at htext
    simp at htext
  rw [resolve_of_ne_empty hne, htext, hstart, ← hspell, hhead _ ht hwhole, hspell]
  simp [← String.toList_inj]

/--
**Resolving commutes with a name behind a slash.** Whatever stands before the slash, and from whatever working directory,
an ordinary name is put behind what comes of the rest.
-/
theorem resolve_append_name (d cwd : String) {name : String} (h : OrdinaryName name) :
    resolve (some (d ++ "/" ++ name)) cwd = resolve (some (d ++ "/")) cwd ++ name := by
  obtain ⟨path, hpath⟩ := resolve_append d cwd
  have hslash : resolve (some (d ++ "/")) cwd = path ++ "/" := by
    simpa using hpath "" carried_empty
  rw [hpath name (carried_name h), hslash]

/-- behind a path that keeps a `..`, and in which one is glued to a name -/
theorem resolve_append_name_parents :
    OrdinaryName ".c" ∧ resolve (some "../.././..x//..///") "/a/b" = "/x/../" ∧
      resolve (some "../.././..x//..///.c") "/a/b" = "/x/../.c" := by
  have hname : OrdinaryName ".c" := by decide
  have hpath : resolve (some "../.././..x//..///") "/a/b" = "/x/../" := by decide
  have happend := resolve_append_name "../.././..x//..//" "/a/b" hname
  exact ⟨hname, hpath, happend.trans (congrArg (· ++ ".c") hpath)⟩

theorem normalize_spell {segs : List (List Char)} (h : ∀ s ∈ segs, Whole s) :
    normalize (spell segs) = spell (rooted (settle maxPasses ⟨[], segs⟩)) := by
  have hsplit : split isSlash (spell segs) = ⟨[], segs⟩ := split_append_spell [] h
  rw [normalize_eq_spell, hsplit]

theorem whole_parent : Whole parent := by decide

/-- two dots behind segments take out the last of them, whether or not a slash stands between -/
theorem normalize_parent {segs : List (List Char)} {last : List Char}
    (h : ∀ s ∈ segs ++ [last], s ≠ [] ∧ Whole s ∧ Inert s) :
    normalize (spell (segs ++ [last, parent])) = spell (rooted ⟨[], segs⟩) ∧
      normalize (spell (segs ++ [last, [], parent])) = spell (rooted ⟨[], segs⟩) := by
  have hsegs : ∀ s ∈ segs, s ≠ [] ∧ Whole s ∧ Inert s := fun s hs => h s (List.mem_append_left _ hs)
  obtain ⟨hne, hwhole, hinert⟩ := h last (by simp)
  have hsettle : ∀ n, settle (n + 1) ⟨[], segs ++ [last, parent]⟩ = ⟨[], segs⟩ := fun n =>
    settle_parent n (fun s hs => (hsegs s hs).2.2) (fun s hs => (hsegs s hs).1) hinert hne
  have hsettle' : settle maxPasses ⟨[], segs ++ [last, [], parent]⟩ = ⟨[], segs⟩ := by
    have hstep := settle_empty_parent 63 (fun s hs => (h s hs).2.2) (fun s hs => (h s hs).1)
    simp only [List.append_assoc, List.singleton_append] at hstep
    exact hstep.trans (hsettle 62)
  constructor
  · rw [normalize_spell, show settle maxPasses _ = _ from hsettle 63]
    simp only [List.mem_append, List.mem_cons, List.not_mem_nil, or_false]
    rintro s (hs | rfl | rfl)
    · exact (hsegs s hs).2.1
    · exact hwhole
    · exact whole_parent
  · rw [normalize_spell, hsettle']
    simp only [List.mem_append, List.mem_cons, List.not_mem_nil, or_false]
    rintro s (hs | rfl | rfl | rfl)
    · exact (hsegs s hs).2.1
    · exact hwhole
    · simp [Whole]
    · exact whole_parent

/-- two dots take away the last name of the working directory -/
theorem resolve_parent {cwd : String} {init : List String} {last : String} (h : Spells cwd (init ++ [last]))
    (hnames : ∀ n ∈ init ++ [last], OrdinaryName n) : resolve (some "..") cwd = absolute init := by
  have hmap : (init ++ [last]).map String.toList = init.map String.toList ++ [last.toList] := by simp
  have hplain : ∀ s ∈ init.map String.toList ++ [last.toList], s ≠ [] ∧ Whole s ∧ Inert s := by
    intro s hs
    obtain ⟨n, hn, rfl⟩ := List.mem_map.1 (hmap ▸ hs)
    exact ⟨(isName_iff.1 (hnames n hn).1).1, (isName_iff.1 (hnames n hn).1).2, (hnames n hn).2⟩
  obtain ⟨hbare, hslash⟩ := normalize_parent hplain
  have hdots : "..".toList = parent := rfl
  have htext : normalize (spelled "..".toList cwd.toList) = (absolute init).toList := by
    rw [spelled_relative (by decide), absolute_eq_rooted, hdots]
    rcases h with rfl | ⟨-, rfl⟩
    · rw [toList_absolute (by simp), hmap, ← hbare]
      simp [spell]
    · rw [toList_absolute_slash (by simp), hmap, ← hslash]
      simp [spell]
  rw [resolve_of_ne_empty (by decide), htext, String.ofList_toList]

end PageShell.Path
