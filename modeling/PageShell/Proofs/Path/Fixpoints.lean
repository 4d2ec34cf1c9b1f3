/-
Resolving what has been resolved.

When the passes end, none of them would change the pieces that are left. The slash that is then put before a path which
lacks it makes a segment of the first piece, and what stood right behind the first slash now stands behind a segment. So
a resolved path can be rewritten once more, at its first two segments alone (`Resolved.again`): `/a/..x/..` comes to
`/x/..`, and that to `/`. The first piece is empty, and nothing is rewritten, as long as no segment starts with two dots
but `..` itself, since only the rest of such a segment is glued to what stands before (`resolve_idempotent_iff`).
-/
import PageShell.Proofs.Path.Halving

namespace PageShell.Path

open Text

/-! ## Two dots and nothing else -/

/-- a segment that starts with two dots is just `..` -/
def PlainParents (segs : List (List Char)) : Prop :=
  ∀ s ∈ segs, startsWithParent s = true → s = parent

/-- two dots alone leave nothing to be glued to what stands before -/
theorem dropParents_of_plainParents (before : List Char) {rest : List (List Char)} (h : PlainParents rest) :
    (dropParents before rest).first = before ∧ (dropParents before rest).rest.Sublist rest := by
  fun_induction dropParents before rest with
  | case1 before => exact ⟨rfl, List.Sublist.refl []⟩
  | case2 before a => exact ⟨rfl, List.Sublist.refl [a]⟩
  | case3 before a b rest hdel ih =>
    have hb : b = parent := h b (by simp) (Bool.and_eq_true_iff.1 hdel).2
    obtain ⟨hfirst, hsub⟩ := ih fun s hs => h s (by simp [hs])
    refine ⟨?_, (hsub.cons b).cons a⟩
    rw [hfirst, hb]
    exact List.append_nil before
  | case4 before a b rest hkeep ih =>
    obtain ⟨hfirst, hsub⟩ := ih fun s hs => h s (List.mem_cons_of_mem a hs)
    refine ⟨rfl, ?_⟩
    rw [Pieces.toList, hfirst]
    exact hsub.cons_cons a

theorem tidy_of_plainParents {p : Pieces} (h : PlainParents p.rest) :
    (tidy p).first = p.first ∧ (tidy p).rest.Sublist p.rest := by
  obtain ⟨hfirst, hsub⟩ := dropParents_of_plainParents p.first h
  exact ⟨hfirst, ((dropEmpty_sublist _).trans (dropDots_sublist _)).trans hsub⟩

theorem settle_of_plainParents (n : Nat) {p : Pieces} (h : PlainParents p.rest) : (settle n p).first = p.first := by
  induction n generalizing p with
  | zero => rfl
  | succ n ih =>
    obtain ⟨hfirst, hsub⟩ := tidy_of_plainParents h
    rw [settle_succ, ih fun s hs => h s (hsub.subset hs)]
    exact hfirst

/-- the passes only take segments out -/
theorem settle_sublist (n : Nat) {p : Pieces} (h : PlainParents p.rest) : (settle n p).rest.Sublist p.rest := by
  induction n generalizing p with
  | zero => exact List.Sublist.refl p.rest
  | succ n ih =>
    obtain ⟨-, hsub⟩ := tidy_of_plainParents h
    rw [settle_succ]
    exact (ih fun s hs => h s (hsub.subset hs)).trans hsub

/-! ## What is left to take out of a resolved path -/

theorem load_eq_zero_iff {segs : List (List Char)} : load segs = 0 ↔ parents segs.tail = 0 ∧ dots segs = 0 := by
  unfold load
  omega

theorem load_tail_eq_zero {segs : List (List Char)} (h : load segs = 0) : load segs.tail = 0 := by
  obtain ⟨hparents, hdots⟩ := load_eq_zero_iff.1 h
  have htail : parents segs.tail.tail ≤ parents segs.tail := parents_le_of_sublist (List.tail_sublist _)
  have hkept : dots segs.tail ≤ dots segs := by
    cases segs with
    | nil => exact Nat.le_refl _
    | cons a segs => exact dots_le_cons a segs
  exact load_eq_zero_iff.2 (by omega)

/-- pieces that a pass leaves as they are have nothing left to take out -/
theorem load_of_tidy_eq {p : Pieces} (h : tidy p = p) : Tight p.rest ∧ load p.rest = 0 := by
  have htight : Tight p.rest := by
    rw [← h]
    exact tight_tidy p
  have hload := load_tidy htight
  rw [h] at hload
  exact ⟨htight, by omega⟩

/-- segments behind slashes that only have something to take out at the first two of them -/
structure Resolved (segs : List (List Char)) : Prop where
  ne_nil : segs ≠ []
  whole : ∀ s ∈ segs, Whole s
  tight : Tight segs
  load_tail : load segs.tail = 0

theorem tail_rooted_sublist (p : Pieces) : (rooted p).tail.Sublist p.rest := by
  unfold rooted
  split_ifs
  · exact List.nil_sublist _
  · exact List.tail_sublist _
  · exact List.Sublist.refl _

theorem resolved_rooted {p : Pieces} (hwhole : ∀ s ∈ p.toList, Whole s) (htight : Tight p.rest)
    (hload : load p.rest = 0) : Resolved (rooted p) := by
  refine ⟨?_, whole_of_mem_rooted hwhole, ?_, ?_⟩
  · unfold rooted
    split_ifs with hfirst hrest
    · simp
    · exact hrest
    · simp
  · unfold rooted
    split_ifs with hfirst
    · simp [Tight]
    · exact htight
    · intro s hs
      obtain ⟨first, rest⟩ := p
      cases rest with
      | nil => simp at hs
      | cons b rest =>
        rcases List.mem_cons.1 hs with rfl | hs
        · exact hfirst
        · exact htight s hs
  · unfold rooted
    split_ifs
    · rfl
    · exact load_tail_eq_zero hload
    · exact hload

/-! ## Resolving again -/

theorem spell_inj {segs segs' : List (List Char)} (h : ∀ s ∈ segs, Whole s) (h' : ∀ s ∈ segs', Whole s) :
    spell segs = spell segs' ↔ segs = segs' := by
  refine ⟨fun heq => ?_, fun heq => by rw [heq]⟩
  have hsplit := split_append_spell [] h
  rw [heq] at hsplit
  exact (Pieces.mk.inj (hsplit.symm.trans (split_append_spell [] h'))).2

/-- a pass that is the last one says what segments behind slashes come to -/
theorem normalize_spell_of_tidy {segs : List (List Char)} (h : ∀ s ∈ segs, Whole s) {p : Pieces}
    (hstep : tidy ⟨[], segs⟩ = p) (hlast : tidy p = p) : normalize (spell segs) = spell (rooted p) := by
  have hsettle : ∀ n, settle (n + 1) ⟨[], segs⟩ = p := by
    intro n
    rw [settle_succ, hstep, settle_of_tidy hlast]
  rw [normalize_spell h, maxPasses, hsettle]

namespace Resolved

variable {a b : List Char} {segs more : List (List Char)}

/-- nothing left to take out, nothing changed -/
theorem normalize_of_load (h : Resolved segs) (hload : load segs = 0) : normalize (spell segs) = spell segs := by
  have hfixed : tidy ⟨[], segs⟩ = ⟨[], segs⟩ := tidy_of_load_eq_zero h.tight hload
  rw [normalize_spell_of_tidy h.whole hfixed hfixed, rooted, if_pos rfl, if_neg h.ne_nil]

/-- two dots in the second segment take out the first one, and the rest of the second one is what is left of both -/
theorem normalize_of_parent (h : Resolved (a :: b :: more)) (hb : startsWithParent b = true) :
    normalize (spell (a :: b :: more)) = spell (rooted ⟨b.drop 2, more⟩) := by
  have ha : a ≠ [] := h.tight.head_ne_nil
  have hmore : load more = 0 := load_tail_eq_zero h.load_tail
  have hlast : tidy ⟨b.drop 2, more⟩ = ⟨b.drop 2, more⟩ := tidy_of_load_eq_zero h.tight.tail.tail hmore
  have hstep : tidy ⟨[], a :: b :: more⟩ = tidy ⟨b.drop 2, more⟩ := by
    simp [tidy, dropParents, ha, hb]
  exact normalize_spell_of_tidy h.whole (hstep.trans hlast) hlast

/-- a dot in the first segment is taken out -/
theorem normalize_of_dot (h : Resolved (['.'] :: b :: more)) (hb : startsWithParent b = false) :
    normalize (spell (['.'] :: b :: more)) = spell (b :: more) := by
  have hload : load (b :: more) = 0 := h.load_tail
  obtain ⟨hparents, hdots⟩ := load_eq_zero_iff.1 hload
  have hlast : tidy ⟨[], b :: more⟩ = ⟨[], b :: more⟩ := tidy_of_load_eq_zero h.tight.tail hload
  have hnoParent : ∀ s ∈ (['.'] :: b :: more).tail, startsWithParent s = false := by
    intro s hs
    rcases List.mem_cons.1 hs with rfl | hs
    · exact hb
    · simpa using List.countP_eq_zero.1 hparents s hs
  have hnoDot : ∀ s ∈ more.dropLast, s ≠ ['.'] := by
    intro s hs hdot
    obtain ⟨-, hmore⟩ := load_eq_zero_iff.1 (load_tail_eq_zero hload)
    exact List.count_eq_zero.1 hmore (hdot ▸ hs)
  have hstep : tidy ⟨[], ['.'] :: b :: more⟩ = ⟨[], b :: more⟩ := by
    simp only [tidy, dropParents_of_no_parent [] hnoParent, dropDots, if_true, dropDots_of_dropLast hnoDot,
      dropEmpty_of_tight h.tight.tail]
  rw [normalize_spell_of_tidy h.whole hstep hlast, rooted, if_pos rfl, if_neg (List.cons_ne_nil b more)]

/-- something is left to take out just if the first segment is a dot with more behind it, or two dots start the second -/
theorem load_ne_zero_iff (h : Resolved segs) :
    load segs ≠ 0 ↔ ∃ a b more, segs = a :: b :: more ∧ (a = ['.'] ∨ startsWithParent b = true) := by
  constructor
  · intro hload
    match segs, h with
    | [], h => exact absurd rfl h.ne_nil
    | [a], h => exact absurd rfl hload
    | a :: b :: more, h =>
      refine ⟨a, b, more, rfl, ?_⟩
      by_contra hneither
      obtain ⟨hdot, hparent⟩ := not_or.1 hneither
      obtain ⟨hparents, hdots⟩ := load_eq_zero_iff.1 h.load_tail
      apply hload
      apply load_eq_zero_iff.2
      constructor
      · rw [List.tail_cons, parents_cons, if_neg hparent]
        exact hparents
      · rw [dots_cons_cons, if_neg hdot]
        exact hdots
  · rintro ⟨a, b, more, rfl, hkind⟩ hload
    obtain ⟨hparents, hdots⟩ := load_eq_zero_iff.1 hload
    rcases hkind with hdot | hparent
    · rw [dots_cons_cons, if_pos hdot] at hdots
      omega
    · rw [List.tail_cons, parents_cons, if_pos hparent] at hparents
      omega

/--
What resolving again does to a resolved path. It spells segments like these again, and just the same ones if nothing is
left to take out. Two dots can only be taken out the first time, and after a time at which there are none nothing is left.
-/
theorem again (h : Resolved segs) : ∃ segs', normalize (spell segs) = spell segs' ∧ Resolved segs' ∧
    (segs' = segs ↔ load segs = 0) ∧ parents segs'.tail = 0 ∧ (parents segs.tail = 0 → load segs' = 0) := by
  by_cases hload : load segs = 0
  · exact ⟨segs, h.normalize_of_load hload, h, by simp [hload], (load_eq_zero_iff.1 hload).1, fun _ => hload⟩
  obtain ⟨a, b, more, rfl, hkind⟩ := h.load_ne_zero_iff.1 hload
  obtain ⟨hparents, -⟩ := load_eq_zero_iff.1 h.load_tail
  have hmore : load more = 0 := load_tail_eq_zero h.load_tail
  have hwhole : ∀ s ∈ b :: more, Whole s := fun s hs => h.whole s (List.mem_cons_of_mem a hs)
  have hshorter : ∀ {segs' : List (List Char)}, segs'.tail.length ≤ more.length →
      (segs' = a :: b :: more ↔ load (a :: b :: more) = 0) := by
    intro segs' hlength
    refine ⟨?_, fun hnone => absurd hnone hload⟩
    rintro rfl
    simp at hlength
  cases hb : startsWithParent b with
  | true =>
    have hsub := tail_rooted_sublist ⟨b.drop 2, more⟩
    have hpieces : ∀ s ∈ (Pieces.mk (b.drop 2) more).toList, Whole s := by
      intro s hs
      rcases List.mem_cons.1 hs with rfl | hs
      · exact fun c hc => hwhole b List.mem_cons_self c (List.mem_of_mem_drop hc)
      · exact hwhole s (List.mem_cons_of_mem b hs)
    have hnone : parents (rooted ⟨b.drop 2, more⟩).tail ≤ 0 :=
      calc parents (rooted ⟨b.drop 2, more⟩).tail
        _ ≤ parents more := parents_le_of_sublist hsub
        _ ≤ 0 := Nat.le_of_eq hparents
    refine ⟨_, h.normalize_of_parent hb, resolved_rooted hpieces h.tight.tail.tail hmore, hshorter hsub.length_le,
      Nat.le_zero.1 hnone, ?_⟩
    intro hfree
    rw [List.tail_cons, parents_cons, if_pos hb] at hfree
    omega
  | false =>
    obtain rfl : a = ['.'] := hkind.resolve_right (by simp [hb])
    exact ⟨b :: more, h.normalize_of_dot hb, ⟨List.cons_ne_nil b more, hwhole, h.tight.tail, hmore⟩,
      hshorter (Nat.le_refl _), hparents, fun _ => h.load_tail⟩

end Resolved

/-! ## Resolved paths -/

/-- at its start the path can be rewritten: its first segment is a dot, or two dots stand right behind it -/
def Reopens (path : String) : Prop :=
  ∃ name rest, path.toList = '/' :: (name ++ '/' :: rest) ∧ Whole name ∧ (name = ['.'] ∨ startsWithParent rest = true)

/-- two dots at the start of a text are at the start of its first piece -/
theorem startsWithParent_split {s : List Char} (h : startsWithParent s = true) :
    startsWithParent (split isSlash s).first = true := by
  obtain ⟨rest, rfl⟩ := startsWithParent_iff.1 h
  have hdot : isSlash '.' = false := by decide
  rw [parent, List.cons_append, List.cons_append, split_cons_other hdot, split_cons_other hdot]
  rfl

/-- a resolved path reopens just if something is left to take out -/
theorem Resolved.reopens_iff {segs : List (List Char)} (h : Resolved segs) :
    Reopens (String.ofList (spell segs)) ↔ load segs ≠ 0 := by
  rw [h.load_ne_zero_iff]
  constructor
  · intro ⟨name, rest, htext, hname, hstart⟩
    have hsplit := split_append_spell [] h.whole
    rw [String.toList_ofList] at htext
    rw [List.nil_append, htext, split_cons_sep isSlash_slash, split_append_sep isSlash_slash,
      split_of_none hname] at hsplit
    have hsegs : name :: (split isSlash rest).toList = segs := (Pieces.mk.inj hsplit).2
    exact ⟨name, (split isSlash rest).first, (split isSlash rest).rest, hsegs.symm, hstart.imp_right startsWithParent_split⟩
  · rintro ⟨a, b, more, rfl, hkind⟩
    refine ⟨a, b ++ spell more, String.toList_ofList, h.whole a List.mem_cons_self, hkind.imp_right ?_⟩
    intro hb
    obtain ⟨rest, rfl⟩ := startsWithParent_iff.1 hb
    rfl

/-- what resolving such a path again comes to, whatever the working directory -/
theorem Resolved.resolve {segs : List (List Char)} (h : Resolved segs) (cwd : String) :
    resolve (some (String.ofList (spell segs))) cwd = String.ofList (normalize (spell segs)) := by
  obtain ⟨s, rest, rfl⟩ := List.exists_cons_of_ne_nil h.ne_nil
  have hne : String.ofList (spell (s :: rest)) ≠ "" := by simp [spell]
  have hroot : FromRoot (String.ofList (spell (s :: rest))) := by simp [FromRoot, spell]
  rw [resolve_of_ne_empty hne, spelled_fromRoot hroot, String.toList_ofList]

/-- the passes leave nothing to take out behind the first slash -/
theorem load_settle {path : List Char} (h : path.length < 2 ^ 31) :
    let p := settle maxPasses (split isSlash path)
    Tight p.rest ∧ load p.rest = 0 :=
  load_of_tidy_eq (settle_of_length h (by decide)).2

theorem PlainParents.of_fields {path : List Char} (h : PlainParents (fields isSlash path)) :
    PlainParents (split isSlash path).rest := by
  intro s hs hparent
  have hne : s ≠ [] := by
    rintro rfl
    cases hparent
  exact h s (List.mem_filter.2 ⟨List.mem_cons_of_mem _ hs, by simpa using hne⟩) hparent

theorem first_split_of_head {path : List Char} (h : path.head? = some '/') : (split isSlash path).first = [] := by
  obtain ⟨segs, -, hsplit⟩ := exists_split_of_head h
  rw [hsplit]

theorem first_split_spelled (path : String) {cwd : String} (h : FromRoot cwd) :
    (split isSlash (spelled path.toList cwd.toList)).first = [] :=
  first_split_of_head (head?_spelled path h)

/--
**Resolving twice.** A resolved path resolves to itself unless it begins with a dot between slashes, or with a segment that
two dots stand right behind, as in `/x/..`. A path in which only `..` itself starts with two dots never comes to such a one.
What has been resolved three times does not change any more.
-/
theorem resolve_idempotent_iff (path cwd : String) (hne : path ≠ "") (hcwd : FromRoot cwd)
    (h : (spelled path.toList cwd.toList).length < 2 ^ 31) :
    let again := fun p => resolve (some p) cwd
    let r := again path
    (again r = r ↔ ¬Reopens r) ∧ (PlainParents (fields isSlash (spelled path.toList cwd.toList)) → again r = r) ∧
      again (again (again r)) = again (again r) := by
  intro again r
  let p := settle maxPasses (split isSlash (spelled path.toList cwd.toList))
  have hagain : ∀ {segs}, Resolved segs → again (String.ofList (spell segs)) = String.ofList (normalize (spell segs)) :=
    fun hsegs => hsegs.resolve cwd
  have hr : r = String.ofList (spell (rooted p)) := by
    rw [← normalize_eq_spell]
    exact resolve_of_ne_empty hne cwd
  obtain ⟨htight, hload⟩ := load_settle h
  have hresolved : Resolved (rooted p) := resolved_rooted (whole_settle _) htight hload
  obtain ⟨once, honce, honceR, hsame, hparents, -⟩ := hresolved.again
  have hiff : again r = r ↔ load (rooted p) = 0 := by
    rw [hr, hagain hresolved, String.ofList_inj, honce, spell_inj honceR.whole hresolved.whole, hsame]
  refine ⟨?_, ?_, ?_⟩
  · rw [hiff, hr, hresolved.reopens_iff, not_not]
  · intro hplain
    have hfirst : p.first = [] := by
      rw [← first_split_spelled path hcwd]
      exact settle_of_plainParents maxPasses (PlainParents.of_fields hplain)
    rw [hiff, rooted, if_pos hfirst]
    split_ifs
    · rfl
    · exact hload
  · obtain ⟨twice, htwice, htwiceR, -, -, hdone⟩ := honceR.again
    rw [hr, hagain hresolved, honce, hagain honceR, htwice, hagain htwiceR, htwiceR.normalize_of_load (hdone hparents)]

/-- a path that still changes when it is resolved for the second and for the third time -/
theorem resolve_idempotent_iff_thrice :
    FromRoot "/" ∧ resolve (some "/a/..x/.../c") "/" = "/x/.../c" ∧ Reopens "/x/.../c" ∧
      resolve (some "/x/.../c") "/" = "/./c" ∧ resolve (some "/./c") "/" = "/c" ∧ resolve (some "/c") "/" = "/c" := by
  have hroot : FromRoot "/" := by decide
  have hlength : (spelled "/a/..x/.../c".toList "/".toList).length < 2 ^ 31 := by decide
  have honce : resolve (some "/a/..x/.../c") "/" = "/x/.../c" := by decide
  have htwice : resolve (some "/x/.../c") "/" = "/./c" := by decide
  have hthrice : resolve (some "/./c") "/" = "/c" := by decide
  obtain ⟨hiff, -, hstill⟩ := resolve_idempotent_iff "/a/..x/.../c" "/" (by decide) hroot hlength
  simp only [honce, htwice, hthrice] at hiff hstill
  exact ⟨hroot, honce, not_not.1 (mt hiff.2 (by decide)), htwice, hthrice, hstill⟩

end PageShell.Path
