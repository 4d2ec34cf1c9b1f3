/-
Descending from the root along names.

A chain of names can be followed in two parts (`descend_append`), so what a path leads to is looked up in the directory
that its beginning leads to (`lookup_append`). In a tree whose names all have a property, so do the names of every
chain that leads to an entry (`namesAll_of_descend`).
-/
import PageShell.Proofs.Keyed
import PageShell.Proofs.Path.Spelling
import PageShell.FileSystem.Basic

namespace PageShell

namespace Entry

/-! ## Names in a tree -/

mutual

/-- every name in a tree has a property -/
def NamesAll (P : String → Prop) : Entry → Prop
  | .dir children => AllNamesAll P children
  | .file _ | .exec _ => True

/-- the names of some entries, and all names below them, have a property -/
def AllNamesAll (P : String → Prop) : List (String × Entry) → Prop
  | [] => True
  | (n, e) :: rest => P n ∧ NamesAll P e ∧ AllNamesAll P rest

end

mutual

def NamesAll.decide (P : String → Prop) [DecidablePred P] : (e : Entry) → Decidable (NamesAll P e)
  | .dir children => AllNamesAll.decide P children
  | .file _ | .exec _ => .isTrue trivial

def AllNamesAll.decide (P : String → Prop) [DecidablePred P] :
    (children : List (String × Entry)) → Decidable (AllNamesAll P children)
  | [] => .isTrue trivial
  | (_, e) :: rest =>
    have : Decidable (NamesAll P e) := NamesAll.decide P e
    have : Decidable (AllNamesAll P rest) := AllNamesAll.decide P rest
    inferInstanceAs (Decidable (_ ∧ _ ∧ _))

end

instance (P : String → Prop) [DecidablePred P] (e : Entry) : Decidable (NamesAll P e) := NamesAll.decide P e

variable {P : String → Prop}

theorem namesAll_of_find? {children : List (String × Entry)} (h : AllNamesAll P children) {n : String} {e : Entry}
    (hn : Keyed.find? n children = some e) : P n ∧ NamesAll P e := by
  induction children with
  | nil => cases hn
  | cons p rest ih =>
    obtain ⟨k, v⟩ := p
    obtain ⟨hk, hv, hrest⟩ := h
    by_cases heq : k = n
    · simp only [Keyed.find?, heq, if_true, Option.some.injEq] at hn
      exact ⟨heq ▸ hk, hn ▸ hv⟩
    · simp only [Keyed.find?, heq, if_false] at hn
      exact ih hrest hn

mutual

theorem NamesAll.imp {Q : String → Prop} (hPQ : ∀ n, P n → Q n) : ∀ {e : Entry}, NamesAll P e → NamesAll Q e
  | .dir _, h => AllNamesAll.imp hPQ h
  | .file _, _ | .exec _, _ => trivial

theorem AllNamesAll.imp {Q : String → Prop} (hPQ : ∀ n, P n → Q n) :
    ∀ {children : List (String × Entry)}, AllNamesAll P children → AllNamesAll Q children
  | [], _ => trivial
  | (n, _) :: _, h => ⟨hPQ n h.1, NamesAll.imp hPQ h.2.1, AllNamesAll.imp hPQ h.2.2⟩

end

/-! ## Chains of names -/

@[simp] theorem descend_nil (e : Entry) : descend [] e = some e := by
  cases e <;> rfl

theorem descend_cons_dir (n : String) (ns : List String) (children : List (String × Entry)) :
    descend (n :: ns) (.dir children) = (Keyed.find? n children).bind (descend ns) := rfl

/-- an entry that some names lead on from is a directory -/
theorem descend_cons_eq_some {n : String} {ns : List String} {e e' : Entry} (h : descend (n :: ns) e = some e') :
    ∃ children child, e = .dir children ∧ Keyed.find? n children = some child ∧ descend ns child = some e' := by
  cases e with
  | dir children =>
    obtain ⟨child, hchild, hrest⟩ := Option.bind_eq_some_iff.1 h
    exact ⟨children, child, rfl, hchild, hrest⟩
  | file c => cases h
  | exec b => cases h

/-- a chain of names can be followed in two parts -/
theorem descend_append (a b : List String) (e : Entry) :
    descend (a ++ b) e = (descend a e).bind (descend b) := by
  induction a generalizing e with
  | nil => simp
  | cons n a ih =>
    cases e with
    | dir children =>
      rw [List.cons_append, descend_cons_dir, descend_cons_dir, Option.bind_assoc]
      exact congrArg _ (funext ih)
    | file c => rfl
    | exec b' => rfl

theorem namesAll_of_descend {names : List String} {e e' : Entry} (h : NamesAll P e) (hd : descend names e = some e') :
    (∀ n ∈ names, P n) ∧ NamesAll P e' := by
  induction names generalizing e with
  | nil =>
    rw [descend_nil, Option.some.injEq] at hd
    exact ⟨by simp, hd ▸ h⟩
  | cons n names ih =>
    obtain ⟨children, child, rfl, hn, hrest⟩ := descend_cons_eq_some hd
    obtain ⟨hP, hchild⟩ := namesAll_of_find? h hn
    obtain ⟨hall, he'⟩ := ih hchild hrest
    exact ⟨List.forall_mem_cons.2 ⟨hP, hall⟩, he'⟩

theorem wellOrdered_of_descend {names : List String} {e e' : Entry} (h : WellOrdered e)
    (hd : descend names e = some e') : WellOrdered e' := by
  induction names generalizing e with
  | nil =>
    rw [descend_nil, Option.some.injEq] at hd
    exact hd ▸ h
  | cons n names ih =>
    obtain ⟨children, child, rfl, hn, hrest⟩ := descend_cons_eq_some hd
    exact ih (allWellOrdered_iff.1 h.2 (n, child) (Keyed.find?_mem hn)) hrest

/-- what leads to a directory leads through directories -/
theorem dir_of_descend {names init : List String} {e e' : Entry} (h : descend names e = some e')
    (hinit : init <+: names) (hdir : ∃ children, e' = .dir children) :
    ∃ children, descend init e = some (.dir children) := by
  obtain ⟨rest, rfl⟩ := hinit
  obtain ⟨children, rfl⟩ := hdir
  rw [descend_append] at h
  obtain ⟨mid, hmid, hrest⟩ := Option.bind_eq_some_iff.1 h
  cases rest with
  | nil =>
    rw [descend_nil, Option.some.injEq] at hrest
    exact ⟨children, hrest ▸ hmid⟩
  | cons n rest =>
    obtain ⟨siblings, -, rfl, -, -⟩ := descend_cons_eq_some hrest
    exact ⟨siblings, hmid⟩

end Entry

namespace FileSystem

theorem lookup_eq_descend {path : String} {names : List String} (h : Path.segments path = names) (fs : FileSystem) :
    fs.lookup path = fs.rootEntry.descend names := by
  rw [lookup, h]

/-- a directory that is looked up has its children in order -/
theorem ordered_of_lookup {fs : FileSystem} {path : String} {children : List (String × Entry)}
    (h : fs.lookup path = some (.dir children)) : Keyed.Ordered children :=
  (Entry.wellOrdered_of_descend fs.wellOrdered h).1

/-- a directory that is looked up finds each of its children -/
theorem find?_of_lookup {fs : FileSystem} {path : String} {children : List (String × Entry)}
    (h : fs.lookup path = some (.dir children)) {n : String} {e : Entry} (hmem : (n, e) ∈ children) :
    Keyed.find? n children = some e :=
  Keyed.find?_of_mem (ordered_of_lookup h) hmem

/-- what stands behind a slash is looked up in the entry that the beginning leads to -/
theorem lookup_slash (fs : FileSystem) (head tail : List Char) :
    fs.lookup (String.ofList (head ++ '/' :: tail)) =
      (fs.lookup (String.ofList head)).bind (Entry.descend (Path.segments (String.ofList tail))) := by
  simp only [lookup, Path.segments, String.toList_ofList, Text.fields_append_sep Path.isSlash_slash, List.map_append,
    Entry.descend_append]

theorem lookup_below (fs : FileSystem) (p q : String) :
    fs.lookup (p ++ "/" ++ q) = (fs.lookup p).bind (Entry.descend (Path.segments q)) := by
  have htext : p ++ "/" ++ q = String.ofList (p.toList ++ '/' :: q.toList) := by
    rw [← String.toList_inj]
    simp
  rw [htext, lookup_slash, String.ofList_toList, String.ofList_toList]

end FileSystem

end PageShell
