/-
How a directory is listed.

The listing of a directory sorts its children by kind and keeps those of one kind in their order, which comes to the
same as taking out the directories first and then all else (`sortByKind_eq`, `listing_eq`). So a listing holds each
child once (`perm_ofChildren`, `nodup_ofChildren`), with the directories before all else and each of the two groups in
the order of the names (`pairwise_ofChildren`).
-/
import PageShell.Proofs.FileSystem.Descent

namespace PageShell

namespace Listed

/-! ## Sorting by kind -/

/-- a name is put between the directories and the rest -/
theorem place_append {dirs others : List Listed} (hdirs : ∀ l ∈ dirs, l.isDir = true)
    (hothers : ∀ l ∈ others, l.isDir = false) (l : Listed) :
    place l (dirs ++ others) = if l.isDir then l :: (dirs ++ others) else dirs ++ l :: others := by
  induction dirs with
  | nil =>
    cases others with
    | nil => simp [place]
    | cons m others => simp [place, hothers m List.mem_cons_self]
  | cons d dirs ih =>
    have hd : d.isDir = true := hdirs d List.mem_cons_self
    have hrest := ih fun l hl => hdirs l (List.mem_cons_of_mem d hl)
    cases hl : l.isDir with
    | true => simp [place, hl]
    | false =>
      rw [hl, if_neg (by decide)] at hrest
      rw [List.cons_append, place, if_neg (by simp [hl, hd]), hrest]
      rfl

/-- sorting by kind keeps the names of each kind in their order -/
theorem sortByKind_eq (names : List Listed) :
    sortByKind names = names.filter (·.isDir) ++ names.filter (!·.isDir) := by
  induction names with
  | nil => rfl
  | cons l names ih =>
    have hdirs : ∀ m ∈ names.filter (·.isDir), m.isDir = true := fun m hm => (List.mem_filter.1 hm).2
    have hothers : ∀ m ∈ names.filter (!·.isDir), m.isDir = false := fun m hm => by
      simpa using (List.mem_filter.1 hm).2
    calc sortByKind (l :: names)
      _ = place l (sortByKind names) := rfl
      _ = place l (names.filter (·.isDir) ++ names.filter (!·.isDir)) := by rw [ih]
      _ = _ := by
        rw [place_append hdirs hothers]
        cases hl : l.isDir <;> simp [hl]

/-! ## Order and number -/

variable {children : List (String × Entry)}

/-- a listing is made of the children and nothing else -/
theorem perm_ofChildren (children : List (String × Entry)) :
    (ofChildren children).Perm (children.map fun p => Listed.mk p.1 p.2.isDir) :=
  List.filter_append_perm _ _

theorem mem_ofChildren {l : Listed} : l ∈ ofChildren children ↔ ∃ e, (l.name, e) ∈ children ∧ l.isDir = e.isDir := by
  rw [(perm_ofChildren children).mem_iff, List.mem_map]
  constructor
  · rintro ⟨⟨n, e⟩, hmem, rfl⟩
    exact ⟨e, hmem, rfl⟩
  · rintro ⟨e, hmem, hdir⟩
    exact ⟨(l.name, e), hmem, by rw [← hdir]⟩

/-- directories before all else, and else by name -/
def Before (a b : Listed) : Prop :=
  a.isDir = true ∧ b.isDir = false ∨ a.isDir = b.isDir ∧ a.name < b.name

theorem pairwise_ofChildren (h : Keyed.Ordered children) : (ofChildren children).Pairwise Before := by
  have hall : (children.map fun p => Listed.mk p.1 p.2.isDir).Pairwise (·.name < ·.name) := List.pairwise_map.2 h
  have hgroup : ∀ p : Listed → Bool, (∀ a b, p a = true → p b = true → a.isDir = b.isDir) →
      ((children.map fun p => Listed.mk p.1 p.2.isDir).filter p).Pairwise Before := by
    intro p hp
    refine List.Pairwise.imp_of_mem ?_ (hall.filter p)
    intro a b ha hb hlt
    exact Or.inr ⟨hp a b (List.mem_filter.1 ha).2 (List.mem_filter.1 hb).2, hlt⟩
  refine List.pairwise_append.2 ⟨hgroup _ ?_, hgroup _ ?_, ?_⟩
  · intro a b ha hb
    rw [ha, hb]
  · intro a b ha hb
    simp_all
  · intro a ha b hb
    exact Or.inl ⟨(List.mem_filter.1 ha).2, by simpa using (List.mem_filter.1 hb).2⟩

/-- no two of the names that a listing shows are equal -/
theorem nodup_ofChildren (h : Keyed.Ordered children) : ((ofChildren children).map (·.name)).Nodup := by
  have hnames : (children.map fun p => Listed.mk p.1 p.2.isDir).map (·.name) = children.map Prod.fst := by simp
  have hkeys : (children.map Prod.fst).Pairwise (· < ·) := List.pairwise_map.2 h
  rw [((perm_ofChildren children).map _).nodup_iff, hnames]
  refine hkeys.imp ?_
  rintro a _ hlt rfl
  exact String.lt_irrefl a hlt

end Listed

namespace FileSystem

variable {files : FileSystem} {path : String}

theorem listing_eq (files : FileSystem) (path : String) :
    files.listing path = ((files.lookup path).bind Entry.children?).map Listed.ofChildren := by
  have hsort : (fun children : List (String × Entry) =>
      Listed.sortByKind (children.map fun p => Listed.mk p.1 p.2.isDir)) = Listed.ofChildren :=
    funext fun children => Listed.sortByKind_eq _
  rw [listing, hsort]

theorem mem_listing {l : Listed} : l ∈ (files.listing path).getD [] ↔
    ∃ children e, files.lookup path = some (.dir children) ∧ (l.name, e) ∈ children ∧ l.isDir = e.isDir := by
  rw [listing_eq]
  cases hlookup : files.lookup path with
  | none => simp
  | some entry =>
    cases entry with
    | dir children => simp [Entry.children?, Listed.mem_ofChildren]
    | file c => simp [Entry.children?]
    | exec b => simp [Entry.children?]

/-- what a listing shows is a directory in order, or nothing -/
theorem exists_listing (files : FileSystem) (path : String) : ∃ children, Keyed.Ordered children ∧
    (files.listing path).getD [] = Listed.ofChildren children := by
  have hnone : (none : Option (List Listed)).getD [] = Listed.ofChildren [] := rfl
  rw [listing_eq]
  cases hlookup : files.lookup path with
  | none => exact ⟨[], List.Pairwise.nil, hnone⟩
  | some e =>
    cases e with
    | dir children => exact ⟨children, ordered_of_lookup hlookup, rfl⟩
    | file c => exact ⟨[], List.Pairwise.nil, hnone⟩
    | exec b => exact ⟨[], List.Pairwise.nil, hnone⟩

end FileSystem

end PageShell
